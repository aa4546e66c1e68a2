import Lox.Proofs.Syntax.Unlimited

/-! The tokens that phrases begin with. A phrase whose lists keep to the limit is also one of the grammar without limits,
and what holds of all phrases there holds of it. -/
namespace Lox
namespace Grammar

/-- The kinds of tokens that a phrase without an operator in front may begin with. -/
def startsPrimary : Kind → Bool
  | .identifier | .string _ | .number _ | .kwTrue | .kwFalse | .kwNil | .kwThis | .kwSuper
  | .leftParen => true
  | _ => false

/-- The kinds of tokens that an expression may begin with. -/
def startsExpression (kind : Kind) : Bool := startsPrimary kind || kind == .bang || kind == .minus

theorem startsPrimary_of_literal {kind : Kind} {value : Literal} (h : literal? kind = some value) :
    startsPrimary kind := by
  cases kind <;> first | rfl | simp [literal?] at h

theorem startsExpression_of_startsPrimary {kind : Kind} (h : startsPrimary kind) :
    startsExpression kind := by
  simp [startsExpression,h]

theorem startsExpression_of_sign {kind : Kind} (h : kind ∈ [Kind.bang,Kind.minus]) :
    startsExpression kind := by
  simp only [List.mem_cons,List.not_mem_nil,or_false] at h
  rcases h with rfl | rfl <;> rfl

/-- The kinds of tokens that a statement may begin with. -/
def opensStatement : Kind → Bool
  | .kwFor | .kwIf | .kwWhile | .kwReturn | .leftBrace | .kwPrint => true
  | kind => startsExpression kind

/-- The kinds of tokens that a declaration may begin with. -/
def opensDeclaration : Kind → Bool
  | .kwClass | .kwFun | .kwVar => true
  | kind => opensStatement kind

theorem opensStatement_of_expression {kind : Kind} (h : startsExpression kind) : opensStatement kind := by
  cases kind <;> first | rfl | exact h

theorem opensDeclaration_of_statement {kind : Kind} (h : opensStatement kind) :
    opensDeclaration kind := by
  cases kind <;> first | rfl | exact h

/-- Neither a closing token nor an `else` begins a declaration. -/
theorem not_opensDeclaration {kind : Kind} (h : kind ∈ [Kind.rightBrace,Kind.eof,Kind.kwElse]) :
    opensDeclaration kind = false := by
  simp only [List.mem_cons,List.not_mem_nil,or_false] at h
  rcases h with rfl | rfl | rfl <;> rfl

end Grammar

/-! ### Without limits -/

namespace Unlimited

open Grammar

/-- A phrase that binds at least as tightly as a call has no operator in front. -/
theorem Expression.starts {l : Precedence} {i j : Tally} {ts : List Token} {e : Expr} :
    Expression l i ts e j → ∃ t us, ts = t :: us ∧ startsExpression t.kind ∧
      (l = .call ∨ l = .primary → startsPrimary t.kind)
  | .operand (l := l) hl h => by
    obtain ⟨t,us,rfl,ht,hp⟩ := h.starts
    refine ⟨t,us,rfl,ht,?_⟩
    rintro (rfl | rfl)
    · exact hp (.inr rfl)
    · exact absurd rfl hl
  | .joined (l := l) h hop _ => by
    obtain ⟨t,us,rfl,ht,-⟩ := h.starts
    refine ⟨t,_,rfl,ht,?_⟩
    rintro (rfl | rfl) <;> simp [Precedence.operators] at hop
  | .assign hname _ _ => ⟨_,_,rfl,by simp [hname,startsExpression,startsPrimary],by simp⟩
  | .set h _ _ _ _ => by
    obtain ⟨t,us,rfl,ht,-⟩ := h.starts
    exact ⟨t,_,rfl,ht,by simp⟩
  | .ternary h _ _ _ _ => by
    obtain ⟨t,us,rfl,ht,-⟩ := h.starts
    exact ⟨t,_,rfl,ht,by simp⟩
  | .unary hop _ => ⟨_,_,rfl,startsExpression_of_sign hop,by simp⟩
  | .call h _ _ _ => by
    obtain ⟨t,us,rfl,ht,hp⟩ := h.starts
    exact ⟨t,_,rfl,ht,fun _ => hp (.inl rfl)⟩
  | .get h _ _ => by
    obtain ⟨t,us,rfl,ht,hp⟩ := h.starts
    exact ⟨t,_,rfl,ht,fun _ => hp (.inl rfl)⟩
  | .literal h =>
    have hp := startsPrimary_of_literal h
    ⟨_,_,rfl,startsExpression_of_startsPrimary hp,fun _ => hp⟩
  | .variable h => ⟨_,_,rfl,by simp [h,startsExpression,startsPrimary],by simp [h,startsPrimary]⟩
  | .this h => ⟨_,_,rfl,by simp [h,startsExpression,startsPrimary],by simp [h,startsPrimary]⟩
  | .super h _ _ => ⟨_,_,rfl,by simp [h,startsExpression,startsPrimary],by simp [h,startsPrimary]⟩
  | .group h _ _ => ⟨_,_,rfl,by simp [h,startsExpression,startsPrimary],by simp [h,startsPrimary]⟩

variable {i j : Tally} {ts : List Token} {s : Stmt}

theorem ExpressionStatement.starts (h : ExpressionStatement i ts s j) :
    ∃ first us, ts = first :: us ∧ startsExpression first.kind := by
  obtain ⟨he,-⟩ := h
  obtain ⟨first,us,rfl,hs,-⟩ := he.starts
  exact ⟨first,_,rfl,hs⟩

theorem Statement.starts {isOpen : Bool} (h : Statement isOpen i ts s j) :
    ∃ first us, ts = first :: us ∧ opensStatement first.kind := by
  cases h with
  | expression h =>
    obtain ⟨first,us,rfl,hs⟩ := h.starts
    exact ⟨first,us,rfl,opensStatement_of_expression hs⟩
  | print hk _ _ => exact ⟨_,_,rfl,by rw [hk]; rfl⟩
  | «return» hk _ _ => exact ⟨_,_,rfl,by rw [hk]; rfl⟩
  | block h =>
    obtain ⟨hk,-,-⟩ := h
    exact ⟨_,_,rfl,by rw [hk]; rfl⟩
  | ifThen hk _ _ _ _ => exact ⟨_,_,rfl,by rw [hk]; rfl⟩
  | ifElse hk _ _ _ _ _ _ => exact ⟨_,_,rfl,by rw [hk]; rfl⟩
  | «while» hk _ _ _ _ => exact ⟨_,_,rfl,by rw [hk]; rfl⟩
  | «for» hk _ _ _ _ _ _ _ => exact ⟨_,_,rfl,by rw [hk]; rfl⟩

theorem Declaration.starts (h : Declaration i ts s j) :
    ∃ first us, ts = first :: us ∧ opensDeclaration first.kind := by
  cases h with
  | «class» hk _ _ _ _ _ => exact ⟨_,_,rfl,by rw [hk]; rfl⟩
  | function hk _ => exact ⟨_,_,rfl,by rw [hk]; rfl⟩
  | «variable» h => cases h with
    | plain hk _ _ => exact ⟨_,_,rfl,by rw [hk]; rfl⟩
    | initialized hk _ _ _ _ => exact ⟨_,_,rfl,by rw [hk]; rfl⟩
  | statement h =>
    obtain ⟨first,us,rfl,hs⟩ := h.starts
    exact ⟨first,us,rfl,opensDeclaration_of_statement hs⟩

end Unlimited

/-! ### Within the limits -/

namespace Grammar

mutual

/-- A phrase whose lists keep to the limit is one without regard to it, and leads to no error. -/
theorem Expression.unlimited {l : Precedence} {i j : Nat} {ts : List Token} {e : Expr} (errors : List Error) :
    Expression l i ts e j → Unlimited.Expression l ⟨i,errors⟩ ts e ⟨j,errors⟩
  | .operand hl h => .operand hl (h.unlimited errors)
  | .joined h hop hr => .joined (h.unlimited errors) hop (hr.unlimited errors)
  | .assign (j := j) hname heq h => .assign (i := ⟨i,errors⟩) (j := ⟨j,errors⟩) hname heq (h.unlimited errors)
  | .set ho hdot hname heq hv => .set (ho.unlimited errors) hdot hname heq (hv.unlimited errors)
  | .ternary hc hq ha hcolon hb =>
    .ternary (hc.unlimited errors) hq (ha.unlimited errors) hcolon (hb.unlimited errors)
  | .unary hop h => .unary hop (h.unlimited errors)
  | .call h hopen hargs hlimit hparen =>
    .call (h.unlimited errors) hopen (hargs.unlimited errors 0 (by omega)) hparen
  | .get h hdot hname => .get (h.unlimited errors) hdot hname
  | .literal h => .literal h
  | .variable h => .variable (i := ⟨i,errors⟩) h
  | .this h => .this (i := ⟨i,errors⟩) h
  | .super h hdot hmethod => .super (i := ⟨i,errors⟩) h hdot hmethod
  | .group hopen h hclose => .group hopen (h.unlimited errors) hclose

theorem Arguments.unlimited {i j : Nat} {ts : List Token} {es : List Expr} (errors : List Error) (count : Nat)
    (hlimit : count + es.length ≤ maxArguments) :
    Arguments i ts es j → Unlimited.Arguments count ⟨i,errors⟩ ts es ⟨j,errors⟩
  | .none => .none
  | .one h => by
    have he := h.unlimited errors
    obtain ⟨first,us,rfl,-⟩ := he.starts
    refine .one ?_
    rwa [Tally.enter_within (Nat.lt_of_succ_le hlimit)]
  | .more h hcomma ho hne => by
    simp only [List.length_cons] at hlimit
    have he := h.unlimited errors
    obtain ⟨first,us,rfl,-⟩ := he.starts
    refine .more ?_ hcomma (ho.unlimited errors (count + 1) (by omega)) hne
    rwa [Tally.enter_within (by omega)]

end

theorem OptionalExpression.unlimited {i j : Nat} {ts : List Token} {e : Option Expr} (errors : List Error) :
    OptionalExpression i ts e j → Unlimited.OptionalExpression ⟨i,errors⟩ ts e ⟨j,errors⟩
  | .absent => .absent
  | .present h => .present (h.unlimited errors)

theorem Parameters.unlimited {ts names : List Token} (i : Tally) (h : Parameters ts names) :
    ∀ count, count + names.length ≤ maxArguments → Unlimited.Parameters count i ts names i := by
  induction h with
  | none => exact fun _ _ => .none
  | @one name hname =>
    intro count hlimit
    have hone : Unlimited.Parameters count i [name] [name] (i.enter .tooManyParameters count name) := .one hname
    rwa [Tally.enter_within (Nat.lt_of_succ_le hlimit)] at hone
  | more hname hcomma _ hne ih =>
    intro count hlimit
    simp only [List.length_cons] at hlimit
    refine .more hname hcomma ?_ hne
    rw [Tally.enter_within (by omega)]
    exact ih (count + 1) (by omega)

theorem VariableDeclaration.unlimited {i j : Nat} {ts : List Token} {s : Stmt} (errors : List Error) :
    VariableDeclaration i ts s j → Unlimited.VariableDeclaration ⟨i,errors⟩ ts s ⟨j,errors⟩
  | .plain hk hname hsemi => .plain hk hname hsemi
  | .initialized hk hname heq h hsemi => .initialized hk hname heq (h.unlimited errors) hsemi

theorem ExpressionStatement.unlimited {i j : Nat} {ts : List Token} {s : Stmt} (errors : List Error) :
    ExpressionStatement i ts s j → Unlimited.ExpressionStatement ⟨i,errors⟩ ts s ⟨j,errors⟩
  | .mk h hsemi => .mk (h.unlimited errors) hsemi

theorem Superclass.unlimited {i j : Nat} {ts : List Token} {e : Option Expr} (errors : List Error) :
    Superclass i ts e j → Unlimited.Superclass ⟨i,errors⟩ ts e ⟨j,errors⟩
  | .absent => .absent
  | .present hless hparent => .present (i := ⟨i,errors⟩) hless hparent

theorem Initializer.unlimited {i j : Nat} {ts : List Token} {s : Option Stmt} (errors : List Error) :
    Initializer i ts s j → Unlimited.Initializer ⟨i,errors⟩ ts s ⟨j,errors⟩
  | .absent hsemi => .absent hsemi
  | .variable h => .variable (h.unlimited errors)
  | .expression h => .expression (h.unlimited errors)

mutual

theorem Statement.unlimited {isOpen : Bool} {i j : Nat} {ts : List Token} {s : Stmt} (errors : List Error) :
    Statement isOpen i ts s j → Unlimited.Statement isOpen ⟨i,errors⟩ ts s ⟨j,errors⟩
  | .expression h => .expression (h.unlimited errors)
  | .print hk h hsemi => .print hk (h.unlimited errors) hsemi
  | .return hk h hsemi => .return hk (h.unlimited errors) hsemi
  | .block h => .block (h.unlimited errors)
  | .ifThen hk hopen hc hclose h => .ifThen hk hopen (hc.unlimited errors) hclose (h.unlimited errors)
  | .ifElse hk hopen hc hclose h hother he =>
    .ifElse hk hopen (hc.unlimited errors) hclose (h.unlimited errors) hother (he.unlimited errors)
  | .while hk hopen hc hclose h => .while hk hopen (hc.unlimited errors) hclose (h.unlimited errors)
  | .for hk hopen hi hc hsemi hinc hclose h =>
    .for hk hopen (hi.unlimited errors) (hc.unlimited errors) hsemi (hinc.unlimited errors) hclose (h.unlimited errors)

theorem Block.unlimited {i j : Nat} {ts : List Token} {ss : List Stmt} (errors : List Error) :
    Block i ts ss j → Unlimited.Block ⟨i,errors⟩ ts ss ⟨j,errors⟩
  | .mk hopen h hclose => .mk hopen (h.unlimited errors) hclose

theorem Function.unlimited {i j : Nat} {ts : List Token} {d : FunctionDecl} (errors : List Error) :
    Function i ts d j → Unlimited.Function ⟨i,errors⟩ ts d ⟨j,errors⟩
  | .mk hname hopen hp hlimit hclose h =>
    .mk hname hopen (hp.unlimited _ 0 (by omega)) hclose (h.unlimited errors)

theorem Functions.unlimited {i j : Nat} {ts : List Token} {ds : List FunctionDecl} (errors : List Error) :
    Functions i ts ds j → Unlimited.Functions ⟨i,errors⟩ ts ds ⟨j,errors⟩
  | .none => .none
  | .more h ho => .more (h.unlimited errors) (ho.unlimited errors)

theorem Declaration.unlimited {i j : Nat} {ts : List Token} {s : Stmt} (errors : List Error) :
    Declaration i ts s j → Unlimited.Declaration ⟨i,errors⟩ ts s ⟨j,errors⟩
  | .class hk hname hs hopen h hclose =>
    .class hk hname (hs.unlimited errors) hopen (h.unlimited errors) hclose
  | .function hk h => .function hk (h.unlimited errors)
  | .variable h => .variable (h.unlimited errors)
  | .statement h => .statement (h.unlimited errors)

theorem Declarations.unlimited {i j : Nat} {ts : List Token} {ss : List Stmt} (errors : List Error) :
    Declarations i ts ss j → Unlimited.Declarations ⟨i,errors⟩ ts ss ⟨j,errors⟩
  | .none => .none
  | .more h ho => .more (h.unlimited errors) (ho.unlimited errors)

end

variable {i j : Nat} {ts : List Token} {s : Stmt}

theorem Declaration.starts (h : Declaration i ts s j) :
    ∃ first us, ts = first :: us ∧ opensDeclaration first.kind :=
  (h.unlimited []).starts

theorem Declaration.length_pos (h : Declaration i ts s j) : 0 < ts.length := by
  obtain ⟨first,us,rfl,-⟩ := h.starts
  exact Nat.succ_pos _

theorem Declarations.length_le : ∀ {i j : Nat} {ts : List Token} {ss : List Stmt},
    Declarations i ts ss j → ss.length ≤ ts.length
  | _,_,_,_,.none => Nat.le_refl _
  | _,_,_,_,.more h ho => by
    have hpos := h.length_pos
    have hle := ho.length_le
    simp only [List.length_cons,List.length_append]
    omega

end Grammar
end Lox

import Lox.Proofs.Dialect.Heap
import Lox.Proofs.Session.Reached

/-! A text keeps to a dialect if each of its tokens does. -/
namespace Lox

/-- The words for what a dialect does without do not occur. -/
structure Token.Within (d : Dialect) (t : Token) : Prop where
  loops : t.kind = .kwWhile ∨ t.kind = .kwFor → d.loops
  reads : t.kind = .identifier ∨ t.kind = .kwThis → d.Reads t.lexeme

/-- All of the tokens are within the dialect. -/
def Spoken (d : Dialect) (ts : List Token) : Prop := ∀ t ∈ ts, t.Within d

namespace Spoken

variable {d : Dialect} {t : Token} {ts us : List Token}

theorem head (h : Spoken d (t :: ts)) : t.Within d := h t List.mem_cons_self

theorem tail (h : Spoken d (t :: ts)) : Spoken d ts := fun u hu => h u (List.mem_cons_of_mem t hu)

theorem left (h : Spoken d (ts ++ us)) : Spoken d ts := fun t ht => h t (List.mem_append_left us ht)

theorem right (h : Spoken d (ts ++ us)) : Spoken d us := fun t ht => h t (List.mem_append_right ts ht)

end Spoken

namespace Grammar

variable {d : Dialect}

/-! ### Expressions -/

mutual

theorem Expression.within {l : Precedence} {i j : Nat} {ts : List Token} {e : Expr} :
    Expression l i ts e j → Spoken d ts → e.Within d
  | .operand _ h,hts => h.within hts
  | .joined (l := l) h hop hr,hts => by
    have hleft := h.within hts.left
    have hright := hr.within hts.right.tail
    cases l with
    | disjunction | conjunction | equality | comparison | term | factor => exact ⟨hleft,hright⟩
    | _ => simp [Precedence.operators] at hop
  | .assign _ _ h,hts => h.within hts.tail.tail
  | .set h _ _ _ hv,hts => ⟨h.within hts.left,hv.within hts.right.tail.tail.tail⟩
  | .ternary hc _ ha _ hb,hts =>
    ⟨hc.within hts.left,ha.within hts.right.tail.left,hb.within hts.right.tail.right.tail⟩
  | .unary _ h,hts => h.within hts.tail
  | .call h _ hargs _ _,hts => ⟨h.within hts.left,hargs.within hts.right.tail.left⟩
  | .get h _ _,hts => h.within hts.left
  | .literal _,_ => trivial
  | .variable hk,hts => hts.head.reads (.inl hk)
  | .this hk,hts => hts.head.reads (.inr hk)
  | .super _ _ _,_ => trivial
  | .group _ h _,hts => h.within hts.tail.left

theorem Arguments.within {i j : Nat} {ts : List Token} {es : List Expr} :
    Arguments i ts es j → Spoken d ts → Expr.ListWithin d es
  | .none,_ => trivial
  | .one h,hts => ⟨h.within hts,trivial⟩
  | .more h _ ho _,hts => ⟨h.within hts.left,ho.within hts.right.tail⟩

end

theorem OptionalExpression.within {i j : Nat} {ts : List Token} {e : Option Expr}
    (h : OptionalExpression i ts e j) (hts : Spoken d ts) : Expr.OptionWithin d e := by
  cases h with
  | absent => trivial
  | present h => exact h.within hts

/-! ### Statements -/

theorem VariableDeclaration.within {i j : Nat} {ts : List Token} {s : Stmt}
    (h : VariableDeclaration i ts s j) (hts : Spoken d ts) : s.Within d := by
  cases h with
  | plain => trivial
  | initialized _ _ _ h _ => exact h.within hts.tail.tail.tail.left

theorem ExpressionStatement.within {i j : Nat} {ts : List Token} {s : Stmt}
    (h : ExpressionStatement i ts s j) (hts : Spoken d ts) : s.Within d := by
  cases h with
  | mk h _ => exact h.within hts.left

theorem Superclass.within {i j : Nat} {ts : List Token} {e : Option Expr} (h : Superclass i ts e j)
    (hts : Spoken d ts) : Expr.OptionWithin d e := by
  cases h with
  | absent => trivial
  | present _ hk => exact hts.tail.head.reads (.inl hk)

theorem Initializer.within {i j : Nat} {ts : List Token} {s : Option Stmt} (h : Initializer i ts s j)
    (hts : Spoken d ts) : Stmt.OptionWithin d s := by
  cases h with
  | absent => trivial
  | «variable» h => exact h.within hts
  | expression h => exact h.within hts

theorem desugared_within (hloops : d.loops) {initializer : Option Stmt} {condition increment : Option Expr}
    {body : Stmt} (hi : Stmt.OptionWithin d initializer) (hc : Expr.OptionWithin d condition)
    (hstep : Expr.OptionWithin d increment) (hbody : body.Within d) :
    (desugared initializer condition increment body).Within d := by
  have hstepped : (stepped body increment).Within d := by
    cases increment with
    | none => exact hbody
    | some e => exact ⟨hbody,hstep,trivial⟩
  cases initializer <;> cases condition
  · exact ⟨hloops,trivial,hstepped⟩
  · exact ⟨hloops,hc,hstepped⟩
  · exact ⟨hi,⟨hloops,trivial,hstepped⟩,trivial⟩
  · exact ⟨hi,⟨hloops,hc,hstepped⟩,trivial⟩

mutual

theorem Statement.within {isOpen : Bool} {i j : Nat} {ts : List Token} {s : Stmt} :
    Statement isOpen i ts s j → Spoken d ts → s.Within d
  | .expression h,hts => h.within hts
  | .print _ h _,hts => h.within hts.tail.left
  | .return _ h _,hts => h.within hts.tail.left
  | .block h,hts => h.within hts
  | .ifThen _ _ hc _ h,hts => ⟨hc.within hts.tail.tail.left,h.within hts.tail.tail.right.tail,trivial⟩
  | .ifElse _ _ hc _ h _ he,hts =>
    have hbranches := hts.tail.tail.right.tail
    ⟨hc.within hts.tail.tail.left,h.within hbranches.left,he.within hbranches.right.tail⟩
  | .while hk _ hc _ h,hts =>
    ⟨hts.head.loops (.inl hk),hc.within hts.tail.tail.left,h.within hts.tail.tail.right.tail⟩
  | .for hk _ hi hc _ hs _ h,hts =>
    have hclauses := hts.tail.tail
    desugared_within (hts.head.loops (.inr hk)) (hi.within hclauses.left) (hc.within hclauses.right.left)
      (hs.within hclauses.right.right.tail.left) (h.within hclauses.right.right.tail.right.tail)

theorem Block.within {i j : Nat} {ts : List Token} {ss : List Stmt} :
    Block i ts ss j → Spoken d ts → Stmt.ListWithin d ss
  | .mk _ h _,hts => h.within hts.tail.left

theorem Function.within {i j : Nat} {ts : List Token} {f : FunctionDecl} :
    Function i ts f j → Spoken d ts → Stmt.FunctionWithin d f
  | .mk _ _ _ _ _ h,hts => (Stmt.functionWithin_iff d _).mpr (h.within hts.tail.tail.right.tail)

theorem Functions.within {i j : Nat} {ts : List Token} {fs : List FunctionDecl} :
    Functions i ts fs j → Spoken d ts → Stmt.FunctionsWithin d fs
  | .none,_ => trivial
  | .more h ho,hts => ⟨h.within hts.left,ho.within hts.right⟩

theorem Declaration.within {i j : Nat} {ts : List Token} {s : Stmt} :
    Declaration i ts s j → Spoken d ts → s.Within d
  | .class _ _ hs _ h _,hts => ⟨hs.within hts.tail.tail.left,h.within hts.tail.tail.right.tail.left⟩
  | .function _ h,hts => h.within hts.tail
  | .variable h,hts => h.within hts
  | .statement h,hts => h.within hts

theorem Declarations.within {i j : Nat} {ts : List Token} {ss : List Stmt} :
    Declarations i ts ss j → Spoken d ts → Stmt.ListWithin d ss
  | .none,_ => trivial
  | .more h ho,hts => ⟨h.within hts.left,ho.within hts.right⟩

end

end Grammar

/-- The program of a text is in the dialect if the text has neither the words for loops nor the name of the
clock where the dialect does without them. -/
theorem Session.parse_within {d : Dialect} {s s' : Session} {source : String} {program : List Stmt}
    (h : s.parse source = (.ok program,s'))
    (hloops : ∀ t ∈ (scan source).tokens, t.kind = .kwWhile ∨ t.kind = .kwFor → d.loops)
    (hreads : ∀ t ∈ (scan source).tokens, t.kind = .identifier → d.Reads t.lexeme) :
    Stmt.ListWithin d program := by
  obtain ⟨-,ts,line,htokens,hts,hphrase⟩ := Session.parse_program h
  refine hphrase.within fun t ht => ?_
  have hmem : t ∈ (scan source).tokens := htokens ▸ List.mem_append_left _ ht
  refine ⟨hloops t hmem,?_⟩
  rintro (hk | hk)
  · exact hreads t hmem hk
  · exact (hts t ht).2.lexeme_of_this hk ▸ Dialect.reads_this

end Lox

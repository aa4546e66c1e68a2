import Lox.Proofs.Scoping.Rules
import Lox.Proofs.Syntax.Grammar

/-! The points of a program are checked in the order of its text, with two exceptions: the body of a `for`
statement is checked in front of its increment, and the value of a property assignment in front of the
object. -/
namespace Lox

/-- The token that is blamed if a rule is broken. -/
def Act.blamed : Act → Token
  | declare name | read name => name
  | .return keyword _ | this keyword | super keyword => keyword
  | inherit _ parent => parent

theorem Act.fault?_blamed {around : List Enclosure} {act : Act} {fault : StaticFault} {found : Token}
    (h : act.fault? around = some (fault,found)) : found = act.blamed := by
  unfold fault? at h
  repeat' split at h
  all_goals cases h
  all_goals rfl

theorem Point.violation?_blamed {p : Point} {e : Error} (h : p.violation? = some e) :
    ∃ fault, e = .static fault p.act.blamed := by
  obtain ⟨⟨fault,found⟩,hfault,rfl⟩ := Option.map_eq_some_iff.mp h
  exact ⟨fault,by rw [Act.fault?_blamed hfault]⟩

/-- A token list without `for` and without assignments to properties. -/
structure Sequential (ts : List Token) : Prop where
  loops : .kwFor ∉ ts.map Token.kind
  assignments : ¬ [.dot,.identifier,.equal] <:+: ts.map Token.kind

namespace Sequential

variable {t : Token} {ts us : List Token}

theorem of_infix (h : Sequential us) (hts : ts <:+: us) : Sequential ts where
  loops ht := h.loops (hts.map _ |>.subset ht)
  assignments ht := h.assignments (ht.trans (hts.map _))

theorem left (h : Sequential (ts ++ us)) : Sequential ts := h.of_infix (List.prefix_append _ _).isInfix

theorem right (h : Sequential (ts ++ us)) : Sequential us := h.of_infix (List.suffix_append _ _).isInfix

theorem tail (h : Sequential (t :: ts)) : Sequential ts := h.of_infix (List.suffix_cons _ _).isInfix

end Sequential

/-- The blamed tokens stand in the order of the text. Of one token there may be two points, since a class
names a superclass and reads it at the same place. -/
def Follows (ts : List Token) (ps : List Point) : Prop :=
  List.Sublist (ps.map (·.act.blamed)) (ts.flatMap fun t => [t,t])

namespace Follows

variable {t : Token} {ts us : List Token} {around : List Enclosure} {act : Act} {ps qs : List Point}

theorem nil : Follows ts [] := List.nil_sublist _

theorem append (h : Follows ts ps) (h' : Follows us qs) : Follows (ts ++ us) (ps ++ qs) := by
  rw [Follows,List.map_append,List.flatMap_append]
  exact List.Sublist.append h h'

theorem skip (h : Follows ts ps) : Follows (t :: ts) ps := h.cons _ |>.cons _

theorem cons (hact : act.blamed = t) (h : Follows ts ps) : Follows (t :: ts) (⟨around,act⟩ :: ps) := by
  rw [Follows,List.map_cons,hact]
  exact List.Sublist.cons_cons t (List.Sublist.cons t h)

theorem single (hact : act.blamed = t) : Follows [t] [⟨around,act⟩] := .cons hact .nil

/-- Tokens behind the last point. -/
theorem before (h : Follows ts ps) : Follows (ts ++ us) ps := by
  simpa using h.append nil

/-- If lines never go back in the text, they do not go back from one point to the next. -/
theorem lines_sorted (h : Follows ts ps) (hts : ts.Pairwise (fun t u => t.line ≤ u.line)) :
    ps.Pairwise (fun p q => p.act.blamed.line ≤ q.act.blamed.line) := by
  have hdoubled : (ts.flatMap fun t => [t,t]).Pairwise (fun t u => t.line ≤ u.line) := by
    rw [List.pairwise_flatMap]
    refine ⟨fun t _ => by simp,hts.imp fun {t u} htu => ?_⟩
    simpa using htu
  have hblamed : (ps.map (·.act.blamed)).Pairwise (fun t u => t.line ≤ u.line) := hdoubled.sublist h
  rwa [List.pairwise_map] at hblamed

end Follows

theorem Stmt.functionPoints_eq (inside : List Token → List Stmt → List Enclosure) (d : FunctionDecl) :
    functionPoints inside d =
      parameterPoints (inside · []) [] d.parameters ++ listPoints (inside d.parameters) [] d.body := by
  cases d
  rfl

/-! ### Expressions -/

namespace Grammar

mutual

theorem Expression.follows {l : Precedence} {i j : Nat} {ts : List Token} {e : Expr}
    (around : List Enclosure) : Expression l i ts e j → Sequential ts → Follows ts (e.points around)
  | .operand _ h,hts => h.follows around hts
  | .joined (l := l) h hop hr,hts => by
    have hleft := h.follows around hts.left
    have hright := hr.follows around hts.right.tail
    cases l with
    | disjunction | conjunction | equality | comparison | term | factor =>
      exact hleft.append hright.skip
    | _ => exact absurd hop List.not_mem_nil
  | .assign _ _ h,hts => (h.follows around hts.tail.tail).skip.skip
  | .set _ hdot hname hequals _,hts => by
    refine absurd ?_ hts.assignments
    simp only [List.map_append,List.map_cons,hdot,hname,hequals]
    exact ⟨_,_,List.append_assoc _ _ _⟩
  | .ternary hc _ ha _ hb,hts =>
    (hc.follows around hts.left).append
      ((ha.follows around hts.right.tail.left).append (hb.follows around hts.right.tail.right.tail).skip).skip
  | .unary _ h,hts => (h.follows around hts.tail).skip
  | .call h _ hargs _ _,hts =>
    (h.follows around hts.left).append (hargs.follows around hts.right.tail.left).before.skip
  | .get h _ _,hts => (h.follows around hts.left).before
  | .literal _,_ => .nil
  | .variable _,_ => .single rfl
  | .this _,_ => .single rfl
  | .super _ _ _,_ => .cons rfl .nil
  | .group _ h _,hts => (h.follows around hts.tail.left).before.skip

theorem Arguments.follows {i j : Nat} {ts : List Token} {es : List Expr} (around : List Enclosure) :
    Arguments i ts es j → Sequential ts → Follows ts (Expr.listPoints around es)
  | .none,_ => .nil
  | .one h,hts => by simpa [Expr.listPoints] using h.follows around hts
  | .more h _ ho _,hts => (h.follows around hts.left).append (ho.follows around hts.right.tail).skip

end

theorem OptionalExpression.follows {i j : Nat} {ts : List Token} {e : Option Expr}
    (h : OptionalExpression i ts e j) (around : List Enclosure) (hts : Sequential ts) :
    Follows ts (Expr.optionPoints around e) := by
  cases h with
  | absent => exact .nil
  | present h => exact h.follows around hts

/-! ### Statements -/

theorem VariableDeclaration.follows {i j : Nat} {ts : List Token} {s : Stmt}
    (h : VariableDeclaration i ts s j) (around : List Enclosure) (hts : Sequential ts) :
    Follows ts (s.points around) := by
  cases h with
  | plain => exact (Follows.cons rfl .nil).skip
  | initialized _ _ _ h _ => exact (Follows.cons rfl (h.follows _ hts.tail.tail.tail.left).before.skip).skip

theorem ExpressionStatement.follows {i j : Nat} {ts : List Token} {s : Stmt}
    (h : ExpressionStatement i ts s j) (around : List Enclosure) (hts : Sequential ts) :
    Follows ts (s.points around) := by
  cases h with
  | mk h _ => exact (h.follows around hts.left).before

theorem Parameters.follows {ts names : List Token} (h : Parameters ts names)
    (inside : List Token → List Enclosure) (before : List Token) :
    Follows ts (parameterPoints inside before names) := by
  induction h generalizing before with
  | none => exact .nil
  | one => exact .single rfl
  | more _ _ _ _ ih => exact .cons rfl (ih _).skip

/-- The superclass is named and read at one token. -/
theorem Superclass.follows {i j : Nat} {ts : List Token} {e : Option Expr} (h : Superclass i ts e j)
    (around : List Enclosure) (name : Token) :
    Follows ts (inheritancePoints around name e ++ Expr.optionPoints around e) := by
  cases h with
  | absent => exact .nil
  | @present less parent =>
    have hboth : Follows [parent] [⟨around,.inherit name parent⟩,⟨around,.read parent⟩] :=
      List.Sublist.refl _
    exact hboth.skip

mutual

theorem Statement.follows {isOpen : Bool} {i j : Nat} {ts : List Token} {s : Stmt}
    (around : List Enclosure) : Statement isOpen i ts s j → Sequential ts → Follows ts (s.points around)
  | .expression h,hts => h.follows around hts
  | .print _ h _,hts => (h.follows around hts.tail.left).before.skip
  | .return _ h _,hts => .cons rfl (h.follows around hts.tail.left).before
  | .block h,hts => h.follows _ [] hts
  | .ifThen _ _ hc _ h,hts => by
    have hcondition := hc.follows around hts.tail.tail.left
    have hthen := h.follows around hts.tail.tail.right.tail
    rw [Stmt.points,Stmt.optionPoints,List.append_nil]
    exact (hcondition.append hthen.skip).skip.skip
  | .ifElse _ _ hc _ h _ he,hts => by
    have hbranches := hts.tail.tail.right.tail
    have hcondition := hc.follows around hts.tail.tail.left
    have hthen := h.follows around hbranches.left
    have helse := he.follows around hbranches.right.tail
    exact (hcondition.append (hthen.append helse.skip).skip).skip.skip
  | .while _ _ hc _ h,hts =>
    ((hc.follows around hts.tail.tail.left).append
      (h.follows around hts.tail.tail.right.tail).skip).skip.skip
  | .for hk _ _ _ _ _ _ _,hts => absurd (by simp [hk]) hts.loops

theorem Block.follows {i j : Nat} {ts : List Token} {ss : List Stmt}
    (inside : List Stmt → List Enclosure) (before : List Stmt) :
    Block i ts ss j → Sequential ts → Follows ts (Stmt.listPoints inside before ss)
  | .mk _ h _,hts => (h.follows inside before hts.tail.left).before.skip

theorem Function.follows {i j : Nat} {ts : List Token} {d : FunctionDecl}
    (inside : List Token → List Stmt → List Enclosure) : Function i ts d j → Sequential ts →
      ∃ us, ts = d.name :: us ∧ Follows us (Stmt.functionPoints inside d)
  | .mk _ _ hp _ _ h,hts => by
    have hparameters := hp.follows (inside · []) []
    have hbody := h.follows (inside d.parameters) [] hts.tail.tail.right.tail
    rw [Stmt.functionPoints_eq]
    exact ⟨_,rfl,(hparameters.append hbody.skip).skip⟩

theorem Functions.follows {i j : Nat} {ts : List Token} {ds : List FunctionDecl}
    (around : List Enclosure) :
    Functions i ts ds j → Sequential ts → Follows ts (Stmt.methodPoints around ds)
  | .none,_ => .nil
  | .more h ho,hts => by
    obtain ⟨us,rfl,hfirst⟩ := h.follows _ hts.left
    exact hfirst.skip.append (ho.follows around hts.right)

theorem Declaration.follows {i j : Nat} {ts : List Token} {s : Stmt} (around : List Enclosure) :
    Declaration i ts s j → Sequential ts → Follows ts (s.points around)
  | .class _ _ hs _ h _,hts => by
    rw [Stmt.points,← List.append_assoc]
    refine (Follows.cons rfl ((hs.follows around _).append ?_)).skip
    exact (h.follows _ hts.tail.tail.right.tail.left).before.skip
  | .function _ h,hts => by
    obtain ⟨us,rfl,hinside⟩ := h.follows _ hts.tail
    exact (Follows.cons rfl hinside).skip
  | .variable h,hts => h.follows around hts
  | .statement h,hts => h.follows around hts

theorem Declarations.follows {i j : Nat} {ts : List Token} {ss : List Stmt}
    (inside : List Stmt → List Enclosure) (before : List Stmt) :
    Declarations i ts ss j → Sequential ts → Follows ts (Stmt.listPoints inside before ss)
  | .none,_ => .nil
  | .more h ho,hts => (h.follows _ hts.left).append (ho.follows inside _ hts.right)

end

end Grammar

end Lox

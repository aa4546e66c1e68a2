import Lox.Proofs.Syntax.FirstToken
import Lox.Proofs.Syntax.Reading

/-! The parser of each level of expressions, and the tokens by which a phrase of a level goes on. -/
namespace Lox
namespace Parser

open Grammar

/-- The parser of a level. Expressions inside it may nest `n` deep, and a phrase of the level may itself
contain another one on its right `m` times. -/
def atLevel (n m : Nat) : Precedence → Parser Expr
  | .assignment => assignment (logicalOr (expression n) n) m
  | .disjunction => logicalOr (expression n) n
  | .conjunction => logicalAnd (expression n) n
  | .ternary => ternary (expression n) (equality (expression n) n) m
  | .equality => equality (expression n) n
  | .comparison => comparison (expression n) n
  | .term => term (expression n) n
  | .factor => factor (expression n) n
  | .unary => unary (call (expression n) n) m
  | .call => call (expression n) n
  | .primary => primary (expression n)

/-- What a level does behind a phrase of its own after `used` rounds of its loop. -/
def resume (n : Nat) (l : Precedence) (used : Nat) (e : Expr) : Parser Expr :=
  if l = .call then suffixes (listed (expression n) .tooManyArguments n) (n - used) e
  else chain l.node l.operators (atLevel n n l.tighter) (n - used) e

theorem atLevel_eq_leftGrouped {l : Precedence} (h : l.operators ≠ []) (n m : Nat) :
    atLevel n m l = leftGrouped l.node l.operators (atLevel n n l.tighter) n := by
  cases l <;> first | rfl | exact absurd rfl h

end Parser

namespace Grammar
namespace Precedence

/-- The levels from the loosest to the tightest. -/
def order : List Precedence :=
  [assignment,disjunction,conjunction,ternary,equality,comparison,term,factor,unary,call,primary]

/-- The tokens by which a level itself goes on behind one of its operands. -/
def ownContinuations : Precedence → List Kind
  | assignment => [.equal]
  | ternary => [.question]
  | call => [.leftParen,.dot]
  | l => l.operators

/-- The tokens by which a phrase of a level may go on. -/
def continuations (l : Precedence) : List Kind := (order.dropWhile (· ≠ l)).flatMap ownContinuations

/-- The levels whose loop reads one further operand or suffix in each round. -/
def isLoop : Precedence → Bool
  | assignment | ternary | unary | primary => false
  | _ => true

/-- The tokens by which a phrase of a level may go on within the last round of its loop. -/
def innerContinuations (l : Precedence) : List Kind :=
  if l.isLoop then l.tighter.continuations else l.continuations

theorem inner_subset (l : Precedence) : l.innerContinuations ⊆ l.continuations := by
  cases l <;> decide

theorem tighter_subset_inner (l : Precedence) : l.tighter.continuations ⊆ l.innerContinuations := by
  cases l <;> decide

theorem own_subset_inner {l : Precedence} (h : l.isLoop = false) :
    l.ownContinuations ⊆ l.innerContinuations := by
  cases l <;> first | decide | exact absurd h (by decide)

theorem operators_subset (l : Precedence) : l.operators ⊆ l.continuations := by
  cases l <;> decide

theorem operators_not_tighter {l : Precedence} {kind : Kind} (h : kind ∈ l.operators) :
    kind ∉ l.innerContinuations := by
  revert kind
  cases l <;> simp [operators,innerContinuations,isLoop,continuations,order,ownContinuations,tighter]

theorem ne_call_of_mem_operators {l : Precedence} {kind : Kind} (h : kind ∈ l.operators) :
    l ≠ .call := by
  rintro rfl
  simp [operators] at h

end Precedence

theorem Expression.of_primary {i j : Nat} {ts : List Token} {e : Expr}
    (h : Expression .primary i ts e j) : Expression .assignment i ts e j := by
  have hunary : Expression .unary i ts e j := .operand (by decide) (.operand (by decide) h)
  have hequality : Expression .equality i ts e j :=
    .operand (by decide) (.operand (by decide) (.operand (by decide) (.operand (by decide) hunary)))
  exact .operand (by decide) (.operand (by decide) (.operand (by decide) (.operand (by decide) hequality)))

theorem desugared_eq_forLoop (initializer : Option Stmt) (condition increment : Option Expr)
    (body : Stmt) :
    desugared initializer condition increment body =
      Parser.forLoop initializer condition increment body := by
  cases initializer <;> cases condition <;> cases increment <;> rfl

end Grammar
end Lox

import Lox.Syntax
import Lox.Error

/-! The grammar of programs. Each rule relates the tokens of a phrase to its syntax tree and to the
number of expression identities given out before and behind it. The end mark is no part of a
program. -/
namespace Lox
namespace Grammar

/-- The levels of expressions, from the loosest to the tightest. -/
inductive Precedence
  | assignment
  | disjunction
  | conjunction
  | ternary
  | equality
  | comparison
  | term
  | factor
  | unary
  | call
  | primary
deriving DecidableEq

namespace Precedence

/-- The level whose phrases are the operands of a level. -/
def tighter : Precedence → Precedence
  | assignment => disjunction
  | disjunction => conjunction
  | conjunction => ternary
  | ternary => equality
  | equality => comparison
  | comparison => term
  | term => factor
  | factor => unary
  | unary => call
  | call | primary => primary

/-- The operators of the levels that group to the left. -/
def operators : Precedence → List Kind
  | disjunction => [.kwOr]
  | conjunction => [.kwAnd]
  | equality => [.bangEqual,.equalEqual]
  | comparison => [.greater,.greaterEqual,.less,.lessEqual]
  | term => [.minus,.plus]
  | factor => [.slash,.star]
  | _ => []

/-- Logical operators have a node of their own since they need not evaluate both operands. -/
def node : Precedence → Expr → Token → Expr → Expr
  | disjunction | conjunction => .logical
  | _ => .binary

end Precedence

/-- The literal that a token stands for. -/
def literal? : Kind → Option Literal
  | .number x => some (.number x)
  | .string contents => some (.string contents)
  | .kwTrue => some (.boolean true)
  | .kwFalse => some (.boolean false)
  | .kwNil => some .nil
  | _ => none

mutual

inductive Expression : Precedence → Nat → List Token → Expr → Nat → Prop
  | operand {l i ts e j} : l ≠ .primary → Expression l.tighter i ts e j → Expression l i ts e j
  | joined {l i ts left j operator us right k} : Expression l i ts left j →
      operator.kind ∈ l.operators → Expression l.tighter j us right k →
      Expression l i (ts ++ operator :: us) (l.node left operator right) k
  | assign {i name equals ts value j} : name.kind = .identifier → equals.kind = .equal →
      Expression .assignment (i + 1) ts value j →
      Expression .assignment i (name :: equals :: ts) (.assign (.numbered j) name value) (j + 1)
  | set {i ts object j dot name equals us value k} : Expression .call i ts object j →
      dot.kind = .dot → name.kind = .identifier → equals.kind = .equal →
      Expression .assignment j us value k →
      Expression .assignment i (ts ++ dot :: name :: equals :: us) (.set object name value) k
  | ternary {i ts condition j question us ifTrue k colon vs ifFalse l} :
      Expression .equality i ts condition j → question.kind = .question →
      Expression .assignment j us ifTrue k → colon.kind = .colon →
      Expression .ternary k vs ifFalse l →
      Expression .ternary i (ts ++ question :: (us ++ colon :: vs))
        (.ternary condition ifTrue ifFalse) l
  | unary {i operator ts right j} : operator.kind ∈ [Kind.bang,Kind.minus] →
      Expression .unary i ts right j → Expression .unary i (operator :: ts) (.unary operator right) j
  | call {i ts callee j opening us arguments k paren} : Expression .call i ts callee j →
      opening.kind = .leftParen → Arguments j us arguments k → arguments.length ≤ maxArguments →
      paren.kind = .rightParen →
      Expression .call i (ts ++ opening :: (us ++ [paren])) (.call callee paren arguments) k
  | get {i ts object j dot name} : Expression .call i ts object j → dot.kind = .dot →
      name.kind = .identifier → Expression .call i (ts ++ [dot,name]) (.get object name) j
  | literal {i t value} : literal? t.kind = some value → Expression .primary i [t] (.literal value) i
  | variable {i name} : name.kind = .identifier →
      Expression .primary i [name] (.variable (.numbered i) name) (i + 1)
  | this {i keyword} : keyword.kind = .kwThis →
      Expression .primary i [keyword] (.this (.numbered i) keyword) (i + 1)
  | super {i keyword dot method} : keyword.kind = .kwSuper → dot.kind = .dot →
      method.kind = .identifier →
      Expression .primary i [keyword,dot,method] (.super (.numbered i) keyword method) (i + 1)
  | group {i opening ts inner j closing} : opening.kind = .leftParen →
      Expression .assignment i ts inner j → closing.kind = .rightParen →
      Expression .primary i (opening :: (ts ++ [closing])) (.grouping inner) j

/-- Arguments with commas between them, or none. -/
inductive Arguments : Nat → List Token → List Expr → Nat → Prop
  | none {i} : Arguments i [] [] i
  | one {i ts e j} : Expression .assignment i ts e j → Arguments i ts [e] j
  | more {i ts e j comma us others k} : Expression .assignment i ts e j → comma.kind = .comma →
      Arguments j us others k → others ≠ [] → Arguments i (ts ++ comma :: us) (e :: others) k

end

inductive OptionalExpression : Nat → List Token → Option Expr → Nat → Prop
  | absent {i} : OptionalExpression i [] none i
  | present {i ts e j} : Expression .assignment i ts e j → OptionalExpression i ts (some e) j

/-- Parameters with commas between them, or none. -/
inductive Parameters : List Token → List Token → Prop
  | none : Parameters [] []
  | one {name} : name.kind = .identifier → Parameters [name] [name]
  | more {name comma ts others} : name.kind = .identifier → comma.kind = .comma →
      Parameters ts others → others ≠ [] → Parameters (name :: comma :: ts) (name :: others)

inductive VariableDeclaration : Nat → List Token → Stmt → Nat → Prop
  | plain {i keyword name semicolon} : keyword.kind = .kwVar → name.kind = .identifier →
      semicolon.kind = .semicolon →
      VariableDeclaration i [keyword,name,semicolon] (.var name none) i
  | initialized {i keyword name equals ts e j semicolon} : keyword.kind = .kwVar →
      name.kind = .identifier → equals.kind = .equal → Expression .assignment i ts e j →
      semicolon.kind = .semicolon →
      VariableDeclaration i (keyword :: name :: equals :: (ts ++ [semicolon])) (.var name (some e)) j

inductive ExpressionStatement : Nat → List Token → Stmt → Nat → Prop
  | mk {i ts e j semicolon} : Expression .assignment i ts e j → semicolon.kind = .semicolon →
      ExpressionStatement i (ts ++ [semicolon]) (.expression e) j

inductive Superclass : Nat → List Token → Option Expr → Nat → Prop
  | absent {i} : Superclass i [] none i
  | present {i less parent} : less.kind = .less → parent.kind = .identifier →
      Superclass i [less,parent] (some (.variable (.numbered i) parent)) (i + 1)

/-- The first clause of a `for` statement, which includes its semicolon. -/
inductive Initializer : Nat → List Token → Option Stmt → Nat → Prop
  | absent {i semicolon} : semicolon.kind = .semicolon → Initializer i [semicolon] none i
  | variable {i ts s j} : VariableDeclaration i ts s j → Initializer i ts (some s) j
  | expression {i ts s j} : ExpressionStatement i ts s j → Initializer i ts (some s) j

/-- The body of the loop that a `for` statement stands for. -/
def stepped (body : Stmt) : Option Expr → Stmt
  | none => body
  | some increment => .block [body,.expression increment]

/-- A `for` statement without an initializer is a loop; with one it is a block around that loop. -/
def desugared (initializer : Option Stmt) (condition increment : Option Expr) (body : Stmt) : Stmt :=
  match initializer,condition with
  | none,none => .loop (.literal (.boolean true)) (stepped body increment)
  | none,some c => .loop c (stepped body increment)
  | some s,none => .block [s,.loop (.literal (.boolean true)) (stepped body increment)]
  | some s,some c => .block [s,.loop c (stepped body increment)]

mutual

/-- Statements; the mark tells whether one ends in an `if` that an `else` behind it would join. -/
inductive Statement : Bool → Nat → List Token → Stmt → Nat → Prop
  | expression {i ts s j} : ExpressionStatement i ts s j → Statement false i ts s j
  | print {i keyword ts e j semicolon} : keyword.kind = .kwPrint → Expression .assignment i ts e j →
      semicolon.kind = .semicolon → Statement false i (keyword :: (ts ++ [semicolon])) (.print e) j
  | return {i keyword ts value j semicolon} : keyword.kind = .kwReturn →
      OptionalExpression i ts value j → semicolon.kind = .semicolon →
      Statement false i (keyword :: (ts ++ [semicolon])) (.return keyword value) j
  | block {i ts body j} : Block i ts body j → Statement false i ts (.block body) j
  | ifThen {i keyword opening ts condition j closing us thenBranch k isOpen} : keyword.kind = .kwIf →
      opening.kind = .leftParen → Expression .assignment i ts condition j →
      closing.kind = .rightParen → Statement isOpen j us thenBranch k →
      Statement true i (keyword :: opening :: (ts ++ closing :: us))
        (.branch condition thenBranch none) k
  | ifElse {i keyword opening ts condition j closing us thenBranch k other vs elseBranch l isOpen} :
      keyword.kind = .kwIf → opening.kind = .leftParen → Expression .assignment i ts condition j →
      closing.kind = .rightParen → Statement false j us thenBranch k → other.kind = .kwElse →
      Statement isOpen k vs elseBranch l →
      Statement isOpen i (keyword :: opening :: (ts ++ closing :: (us ++ other :: vs)))
        (.branch condition thenBranch (some elseBranch)) l
  | while {i keyword opening ts condition j closing us body k isOpen} : keyword.kind = .kwWhile →
      opening.kind = .leftParen → Expression .assignment i ts condition j →
      closing.kind = .rightParen → Statement isOpen j us body k →
      Statement isOpen i (keyword :: opening :: (ts ++ closing :: us)) (.loop condition body) k
  | for {i keyword opening ts initializer j us condition k semicolon vs increment l closing ws body
      m isOpen} : keyword.kind = .kwFor → opening.kind = .leftParen → Initializer i ts initializer j →
      OptionalExpression j us condition k → semicolon.kind = .semicolon →
      OptionalExpression k vs increment l → closing.kind = .rightParen →
      Statement isOpen l ws body m →
      Statement isOpen i
        (keyword :: opening :: (ts ++ (us ++ semicolon :: (vs ++ closing :: ws))))
        (desugared initializer condition increment body) m

inductive Block : Nat → List Token → List Stmt → Nat → Prop
  | mk {i opening ts body j closing} : opening.kind = .leftBrace → Declarations i ts body j →
      closing.kind = .rightBrace → Block i (opening :: (ts ++ [closing])) body j

inductive Function : Nat → List Token → FunctionDecl → Nat → Prop
  | mk {i name opening ts parameters closing us body j} : name.kind = .identifier →
      opening.kind = .leftParen → Parameters ts parameters → parameters.length ≤ maxArguments →
      closing.kind = .rightParen → Block i us body j →
      Function i (name :: opening :: (ts ++ closing :: us)) ⟨name,parameters,body⟩ j

inductive Functions : Nat → List Token → List FunctionDecl → Nat → Prop
  | none {i} : Functions i [] [] i
  | more {i ts d j us ds k} : Function i ts d j → Functions j us ds k →
      Functions i (ts ++ us) (d :: ds) k

inductive Declaration : Nat → List Token → Stmt → Nat → Prop
  | class {i keyword name ts superclass j opening us methods k closing} : keyword.kind = .kwClass →
      name.kind = .identifier → Superclass i ts superclass j → opening.kind = .leftBrace →
      Functions j us methods k → closing.kind = .rightBrace →
      Declaration i (keyword :: name :: (ts ++ opening :: (us ++ [closing])))
        (.class name superclass methods) k
  | function {i keyword ts d j} : keyword.kind = .kwFun → Function i ts d j →
      Declaration i (keyword :: ts) (.function d) j
  | variable {i ts s j} : VariableDeclaration i ts s j → Declaration i ts s j
  | statement {isOpen i ts s j} : Statement isOpen i ts s j → Declaration i ts s j

inductive Declarations : Nat → List Token → List Stmt → Nat → Prop
  | none {i} : Declarations i [] [] i
  | more {i ts s j us ss k} : Declaration i ts s j → Declarations j us ss k →
      Declarations i (ts ++ us) (s :: ss) k

end

/-- A program is a sequence of declarations. -/
abbrev Program := Declarations

theorem Declarations.append {i j k : Nat} {ts us : List Token} {ps qs : List Stmt}
    (hqs : Declarations j us qs k) : Declarations i ts ps j → Declarations i (ts ++ us) (ps ++ qs) k
  | .none => hqs
  | .more h hps => by
    rw [List.append_assoc,List.cons_append]
    exact .more h (hqs.append hps)

end Grammar
end Lox

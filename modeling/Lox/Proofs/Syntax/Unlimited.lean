import Lox.Proofs.Syntax.Grammar

/-! The grammar of programs in which lists may be of any length, and the errors that the limit for them leads to. Each
rule relates the tokens of a phrase to its syntax tree and to what has been counted before and behind it. -/
namespace Lox

/-- The expression identities given out, and the errors reported, newest first. -/
structure Tally where
  allocated : Nat
  errors : List Error

namespace Tally

/-- One more identity is given out. -/
def allocate (i : Tally) : Tally := { i with allocated := i.allocated + 1 }

/-- In front of an entry of a list that `count` others precede: one beyond the limit is an error at its first token. -/
def enter (i : Tally) (fault : SyntaxFault) (count : Nat) (first : Token) : Tally :=
  if maxArguments ≤ count then { i with errors := .syntactic fault first :: i.errors } else i

variable {i : Tally} {fault : SyntaxFault} {count : Nat} {first : Token}

theorem enter_within (h : count < maxArguments) : i.enter fault count first = i := if_neg (Nat.not_le.mpr h)

theorem enter_beyond (h : maxArguments ≤ count) :
    i.enter fault count first = { i with errors := .syntactic fault first :: i.errors } := if_pos h

end Tally

namespace Unlimited

open Grammar (Precedence literal? desugared)

mutual

inductive Expression : Precedence → Tally → List Token → Expr → Tally → Prop
  | operand {l i ts e j} : l ≠ .primary → Expression l.tighter i ts e j → Expression l i ts e j
  | joined {l i ts left j operator us right k} : Expression l i ts left j →
      operator.kind ∈ l.operators → Expression l.tighter j us right k →
      Expression l i (ts ++ operator :: us) (l.node left operator right) k
  | assign {i name equals ts value j} : name.kind = .identifier → equals.kind = .equal →
      Expression .assignment i.allocate ts value j →
      Expression .assignment i (name :: equals :: ts) (.assign (.numbered j.allocated) name value) j.allocate
  | set {i ts object j dot name equals us value k} : Expression .call i ts object j →
      dot.kind = .dot → name.kind = .identifier → equals.kind = .equal →
      Expression .assignment j us value k →
      Expression .assignment i (ts ++ dot :: name :: equals :: us) (.set object name value) k
  | ternary {i ts condition j question us ifTrue k colon vs ifFalse l} :
      Expression .equality i ts condition j → question.kind = .question →
      Expression .assignment j us ifTrue k → colon.kind = .colon →
      Expression .ternary k vs ifFalse l →
      Expression .ternary i (ts ++ question :: (us ++ colon :: vs))
        (.ternary condition ifTrue ifFalse) l
  | unary {i operator ts right j} : operator.kind ∈ [Kind.bang,Kind.minus] →
      Expression .unary i ts right j → Expression .unary i (operator :: ts) (.unary operator right) j
  | call {i ts callee j opening us arguments k paren} : Expression .call i ts callee j →
      opening.kind = .leftParen → Arguments 0 j us arguments k → paren.kind = .rightParen →
      Expression .call i (ts ++ opening :: (us ++ [paren])) (.call callee paren arguments) k
  | get {i ts object j dot name} : Expression .call i ts object j → dot.kind = .dot →
      name.kind = .identifier → Expression .call i (ts ++ [dot,name]) (.get object name) j
  | literal {i t value} : literal? t.kind = some value → Expression .primary i [t] (.literal value) i
  | variable {i name} : name.kind = .identifier →
      Expression .primary i [name] (.variable (.numbered i.allocated) name) i.allocate
  | this {i keyword} : keyword.kind = .kwThis →
      Expression .primary i [keyword] (.this (.numbered i.allocated) keyword) i.allocate
  | super {i keyword dot method} : keyword.kind = .kwSuper → dot.kind = .dot →
      method.kind = .identifier →
      Expression .primary i [keyword,dot,method] (.super (.numbered i.allocated) keyword method) i.allocate
  | group {i opening ts inner j closing} : opening.kind = .leftParen →
      Expression .assignment i ts inner j → closing.kind = .rightParen →
      Expression .primary i (opening :: (ts ++ [closing])) (.grouping inner) j

/-- Arguments that `count` others precede, with commas between them, or none. -/
inductive Arguments : Nat → Tally → List Token → List Expr → Tally → Prop
  | none {count i} : Arguments count i [] [] i
  | one {count i first ts e j} : Expression .assignment (i.enter .tooManyArguments count first) (first :: ts) e j →
      Arguments count i (first :: ts) [e] j
  | more {count i first ts e j comma us others k} :
      Expression .assignment (i.enter .tooManyArguments count first) (first :: ts) e j → comma.kind = .comma →
      Arguments (count + 1) j us others k → others ≠ [] →
      Arguments count i (first :: (ts ++ comma :: us)) (e :: others) k

end

inductive OptionalExpression : Tally → List Token → Option Expr → Tally → Prop
  | absent {i} : OptionalExpression i [] none i
  | present {i ts e j} : Expression .assignment i ts e j → OptionalExpression i ts (some e) j

/-- Parameters that `count` others precede, with commas between them, or none. -/
inductive Parameters : Nat → Tally → List Token → List Token → Tally → Prop
  | none {count i} : Parameters count i [] [] i
  | one {count i name} : name.kind = .identifier →
      Parameters count i [name] [name] (i.enter .tooManyParameters count name)
  | more {count i name comma ts others j} : name.kind = .identifier → comma.kind = .comma →
      Parameters (count + 1) (i.enter .tooManyParameters count name) ts others j → others ≠ [] →
      Parameters count i (name :: comma :: ts) (name :: others) j

inductive VariableDeclaration : Tally → List Token → Stmt → Tally → Prop
  | plain {i keyword name semicolon} : keyword.kind = .kwVar → name.kind = .identifier →
      semicolon.kind = .semicolon →
      VariableDeclaration i [keyword,name,semicolon] (.var name none) i
  | initialized {i keyword name equals ts e j semicolon} : keyword.kind = .kwVar →
      name.kind = .identifier → equals.kind = .equal → Expression .assignment i ts e j →
      semicolon.kind = .semicolon →
      VariableDeclaration i (keyword :: name :: equals :: (ts ++ [semicolon])) (.var name (some e)) j

inductive ExpressionStatement : Tally → List Token → Stmt → Tally → Prop
  | mk {i ts e j semicolon} : Expression .assignment i ts e j → semicolon.kind = .semicolon →
      ExpressionStatement i (ts ++ [semicolon]) (.expression e) j

inductive Superclass : Tally → List Token → Option Expr → Tally → Prop
  | absent {i} : Superclass i [] none i
  | present {i less parent} : less.kind = .less → parent.kind = .identifier →
      Superclass i [less,parent] (some (.variable (.numbered i.allocated) parent)) i.allocate

/-- The first clause of a `for` statement, which includes its semicolon. -/
inductive Initializer : Tally → List Token → Option Stmt → Tally → Prop
  | absent {i semicolon} : semicolon.kind = .semicolon → Initializer i [semicolon] none i
  | variable {i ts s j} : VariableDeclaration i ts s j → Initializer i ts (some s) j
  | expression {i ts s j} : ExpressionStatement i ts s j → Initializer i ts (some s) j

mutual

/-- Statements; the mark tells whether one ends in an `if` that an `else` behind it would join. -/
inductive Statement : Bool → Tally → List Token → Stmt → Tally → Prop
  | expression {i ts s j} : ExpressionStatement i ts s j → Statement false i ts s j
  | print {i keyword ts e j semicolon} : keyword.kind = .kwPrint → Expression .assignment i ts e j →
      semicolon.kind = .semicolon → Statement false i (keyword :: (ts ++ [semicolon])) (.print e) j
  | return {i keyword ts value j semicolon} : keyword.kind = .kwReturn →
      OptionalExpression i ts value j → semicolon.kind = .semicolon →
      Statement false i (keyword :: (ts ++ [semicolon])) (.return keyword value) j
  | block {i ts body j} : Block i ts body j → Statement false i ts (.block body) j
  | ifThen {i keyword opening ts condition j closing us thenBranch k isOpen} : keyword.kind = .kwIf →
      opening.kind = .leftParen → Expression .assignment i ts condition j →
      closing.kind = .rightParen → Statement isOpen j us thenBranch k →
      Statement true i (keyword :: opening :: (ts ++ closing :: us))
        (.branch condition thenBranch none) k
  | ifElse {i keyword opening ts condition j closing us thenBranch k other vs elseBranch l isOpen} :
      keyword.kind = .kwIf → opening.kind = .leftParen → Expression .assignment i ts condition j →
      closing.kind = .rightParen → Statement false j us thenBranch k → other.kind = .kwElse →
      Statement isOpen k vs elseBranch l →
      Statement isOpen i (keyword :: opening :: (ts ++ closing :: (us ++ other :: vs)))
        (.branch condition thenBranch (some elseBranch)) l
  | while {i keyword opening ts condition j closing us body k isOpen} : keyword.kind = .kwWhile →
      opening.kind = .leftParen → Expression .assignment i ts condition j →
      closing.kind = .rightParen → Statement isOpen j us body k →
      Statement isOpen i (keyword :: opening :: (ts ++ closing :: us)) (.loop condition body) k
  | for {i keyword opening ts initializer j us condition k semicolon vs increment l closing ws body
      m isOpen} : keyword.kind = .kwFor → opening.kind = .leftParen → Initializer i ts initializer j →
      OptionalExpression j us condition k → semicolon.kind = .semicolon →
      OptionalExpression k vs increment l → closing.kind = .rightParen →
      Statement isOpen l ws body m →
      Statement isOpen i
        (keyword :: opening :: (ts ++ (us ++ semicolon :: (vs ++ closing :: ws))))
        (desugared initializer condition increment body) m

inductive Block : Tally → List Token → List Stmt → Tally → Prop
  | mk {i opening ts body j closing} : opening.kind = .leftBrace → Declarations i ts body j →
      closing.kind = .rightBrace → Block i (opening :: (ts ++ [closing])) body j

inductive Function : Tally → List Token → FunctionDecl → Tally → Prop
  | mk {i name opening ts parameters j closing us body k} : name.kind = .identifier →
      opening.kind = .leftParen → Parameters 0 i ts parameters j →
      closing.kind = .rightParen → Block j us body k →
      Function i (name :: opening :: (ts ++ closing :: us)) ⟨name,parameters,body⟩ k

inductive Functions : Tally → List Token → List FunctionDecl → Tally → Prop
  | none {i} : Functions i [] [] i
  | more {i ts d j us ds k} : Function i ts d j → Functions j us ds k →
      Functions i (ts ++ us) (d :: ds) k

inductive Declaration : Tally → List Token → Stmt → Tally → Prop
  | class {i keyword name ts superclass j opening us methods k closing} : keyword.kind = .kwClass →
      name.kind = .identifier → Superclass i ts superclass j → opening.kind = .leftBrace →
      Functions j us methods k → closing.kind = .rightBrace →
      Declaration i (keyword :: name :: (ts ++ opening :: (us ++ [closing])))
        (.class name superclass methods) k
  | function {i keyword ts d j} : keyword.kind = .kwFun → Function i ts d j →
      Declaration i (keyword :: ts) (.function d) j
  | variable {i ts s j} : VariableDeclaration i ts s j → Declaration i ts s j
  | statement {isOpen i ts s j} : Statement isOpen i ts s j → Declaration i ts s j

inductive Declarations : Tally → List Token → List Stmt → Tally → Prop
  | none {i} : Declarations i [] [] i
  | more {i ts s j us ss k} : Declaration i ts s j → Declarations j us ss k →
      Declarations i (ts ++ us) (s :: ss) k

end

/-- A program is a sequence of declarations. -/
abbrev Program := Declarations

end Unlimited
end Lox

import Lox.Syntax
import Lox.Log

/-! From tokens to syntax trees by recursive descent. Each rule of the grammar is a function of the
rules it refers to at the same or a later token, and the two recursive rules, `expression` and
`declaration`, close the circle. Their budget need only exceed the number of tokens. -/
namespace Lox

/-- What a parse has left to read and what it has produced so far, with the number of identities that
are given out. Errors and events are kept newest first. -/
structure Reader where
  rest : List Token
  allocated : Nat
  errors : List Error
  events : List Event

namespace Reader

def next (r : Reader) : Token := r.rest.headD (.eof 1)

def note (r : Reader) (e : Event) : Reader := { r with events := e :: r.events }

def record (r : Reader) (e : Error) : Reader := { r with errors := e :: r.errors }

end Reader

abbrev Parser := EStateM Error Reader

namespace Parser

def note (e : Event) : Parser Unit := modify (·.note e)

def peek : Parser Token := return (← get).next

/-- Pass over one token; the end mark is never passed. -/
def skip : Parser Unit := modify fun r =>
  match r.rest with
  | t :: ts => if t.isEof then r else { r with rest := ts }
  | [] => r

/-- Read the next token if it is of one of the given kinds. -/
def take? (kinds : List Kind) : Parser (Option Token) := fun r =>
  match r.rest with
  | t :: ts => if t.kind ∈ kinds then .ok (some t) { r with rest := ts } else .ok none r
  | [] => .ok none r

/-- Give up the current declaration. -/
def fail {α : Type} (fault : SyntaxFault) : Parser α := fun r =>
  let e := Error.syntactic fault r.next
  .error e (r.note (.errorCreated e))

/-- Record an error and go on. -/
def report (fault : SyntaxFault) (found : Token) : Parser Unit :=
  let e := Error.syntactic fault found
  modify fun r => (r.note (.errorCreated e)).record e

def expect (kind : Kind) (what : Expectation) : Parser Token := do
  match ← take? [kind] with
  | some t => return t
  | none => fail (.expected what)

def freshId : Parser ExprId := fun r =>
  .ok (.numbered r.allocated) { r with allocated := r.allocated + 1 }

/-- Items up to a token of one of the closing kinds. -/
def manyUntil {α : Type} (closing : List Kind) (item : Parser (Option α)) :
    Nat → Parser (List α)
  | 0 => return []
  | n + 1 => do
    if (← peek).kind ∈ closing then return []
    else
      let found ← item
      let others ← manyUntil closing item n
      return found.toList ++ others

/-- An item that `count` others precede. One beyond the limit is reported. -/
def limited {α : Type} (item : Parser α) (tooMany : SyntaxFault) (count : Nat) : Parser α := do
  if maxArguments ≤ count then report tooMany (← peek)
  item

/-- Items with commas between them; `count` of them precede. -/
def commaSeparated {α : Type} (item : Parser α) (tooMany : SyntaxFault) :
    Nat → Nat → Parser (List α)
  | 0, count => return [← limited item tooMany count]
  | n + 1, count => do
    let x ← limited item tooMany count
    match ← take? [.comma] with
    | none => return [x]
    | some _ => return x :: (← commaSeparated item tooMany n (count + 1))

/-- Items in parentheses, the opening one of which has been read. -/
def listed {α : Type} (item : Parser α) (tooMany : SyntaxFault) (n : Nat) :
    Parser (List α) := do
  if (← peek).kind = .rightParen then return []
  else commaSeparated item tooMany n 0

/-! ### Expressions -/

/-- Literals, names, `this`, `super` and groups. -/
def primary (expression : Parser Expr) : Parser Expr := do
  let t ← peek
  match t.kind with
  | .kwFalse => skip; return .literal (.boolean false)
  | .kwTrue => skip; return .literal (.boolean true)
  | .kwNil => skip; return .literal .nil
  | .number x => skip; return .literal (.number x)
  | .string contents => skip; return .literal (.string contents)
  | .identifier =>
    let id ← freshId
    skip
    return .variable id t
  | .kwThis =>
    let id ← freshId
    skip
    return .this id t
  | .kwSuper =>
    skip
    let _ ← expect .dot .superDot
    let method ← expect .identifier .superMethod
    return .super (← freshId) t method
  | .leftParen =>
    skip
    let inner ← expression
    let _ ← expect .rightParen .groupEnd
    return .grouping inner
  | _ => fail .expectedExpression

/-- Argument lists and properties behind an expression. -/
def suffixes (arguments : Parser (List Expr)) : Nat → Expr → Parser Expr
  | 0, e => return e
  | n + 1, e => do
    match ← take? [.leftParen,.dot] with
    | none => return e
    | some t =>
      if t.kind = .leftParen then
        let args ← arguments
        let paren ← expect .rightParen .argumentsEnd
        suffixes arguments n (.call e paren args)
      else
        let name ← expect .identifier .propertyName
        suffixes arguments n (.get e name)

def call (expression : Parser Expr) (n : Nat) : Parser Expr := do
  suffixes (listed expression .tooManyArguments n) n (← primary expression)

def unary (operand : Parser Expr) : Nat → Parser Expr
  | 0 => operand
  | n + 1 => do
    match ← take? [.bang,.minus] with
    | none => operand
    | some operator => return .unary operator (← unary operand n)

/-- Further operands of an operator that groups to the left. -/
def chain (node : Expr → Token → Expr → Expr) (operators : List Kind) (operand : Parser Expr) :
    Nat → Expr → Parser Expr
  | 0, left => return left
  | n + 1, left => do
    match ← take? operators with
    | none => return left
    | some operator =>
      let right ← operand
      chain node operators operand n (node left operator right)

def leftGrouped (node : Expr → Token → Expr → Expr) (operators : List Kind)
    (operand : Parser Expr) (n : Nat) : Parser Expr := do
  chain node operators operand n (← operand)

def factor (expression : Parser Expr) (n : Nat) : Parser Expr :=
  leftGrouped .binary [.slash,.star] (unary (call expression n) n) n

def term (expression : Parser Expr) (n : Nat) : Parser Expr :=
  leftGrouped .binary [.minus,.plus] (factor expression n) n

def comparison (expression : Parser Expr) (n : Nat) : Parser Expr :=
  leftGrouped .binary [.greater,.greaterEqual,.less,.lessEqual] (term expression n) n

def equality (expression : Parser Expr) (n : Nat) : Parser Expr :=
  leftGrouped .binary [.bangEqual,.equalEqual] (comparison expression n) n

/-- `?:` groups to the right. -/
def ternary (expression equality : Parser Expr) : Nat → Parser Expr
  | 0 => equality
  | n + 1 => do
    let condition ← equality
    match ← take? [.question] with
    | none => return condition
    | some _ =>
      let ifTrue ← expression
      let _ ← expect .colon .ternaryElse
      return .ternary condition ifTrue (← ternary expression equality n)

def logicalAnd (expression : Parser Expr) (n : Nat) : Parser Expr :=
  leftGrouped .logical [.kwAnd] (ternary expression (equality expression n) n) n

def logicalOr (expression : Parser Expr) (n : Nat) : Parser Expr :=
  leftGrouped .logical [.kwOr] (logicalAnd expression n) n

/-- Whatever stands to the left of `=` is parsed first; only then is it known whether it can be
assigned to. -/
def assignment (operand : Parser Expr) : Nat → Parser Expr
  | 0 => operand
  | n + 1 => do
    let target ← operand
    match ← take? [.equal] with
    | none => return target
    | some equals =>
      let value ← assignment operand n
      match target with
      | .variable _ name => return .assign (← freshId) name value
      | .get object name => return .set object name value
      | other =>
        report .invalidAssignmentTarget equals
        return other

def expression : Nat → Parser Expr
  | 0 => fail .expectedExpression
  | n + 1 => assignment (logicalOr (expression n) n) n

/-! ### Statements -/

/-- The statements of a block whose brace has been read. -/
def block (declaration : Parser (Option Stmt)) (n : Nat) : Parser (List Stmt) := do
  let body ← manyUntil [.rightBrace,.eof] declaration n
  let _ ← expect .rightBrace .blockEnd
  return body

def function (kind : FunctionKind) (declaration : Parser (Option Stmt)) (n : Nat) :
    Parser FunctionDecl := do
  let name ← expect .identifier (.functionName kind)
  let _ ← expect .leftParen (.parametersStart kind)
  let parameters ← listed (expect .identifier .parameterName) .tooManyParameters n
  let _ ← expect .rightParen .parametersEnd
  let _ ← expect .leftBrace (.functionBody kind)
  return ⟨name,parameters,← block declaration n⟩

/-- The name of a superclass, if one is given. -/
def superclassClause : Parser (Option Expr) := do
  match ← take? [.less] with
  | none => return none
  | some _ =>
    let parent ← expect .identifier .superclassName
    return some (.variable (← freshId) parent)

def classDeclaration (declaration : Parser (Option Stmt)) (n : Nat) : Parser Stmt := do
  let name ← expect .identifier .className
  let superclass ← superclassClause
  let _ ← expect .leftBrace .classBody
  let methods ← manyUntil [.rightBrace,.eof] (some <$> function .method declaration n) n
  let _ ← expect .rightBrace .classEnd
  note (.classParsed name.lexeme methods.length)
  return .class name superclass methods

/-- The initial value of a variable, if one is given. -/
def initialValue (n : Nat) : Parser (Option Expr) := do
  match ← take? [.equal] with
  | none => return none
  | some _ => some <$> expression n

def varDeclaration (n : Nat) : Parser Stmt := do
  let name ← expect .identifier .variableName
  let initializer ← initialValue n
  let _ ← expect .semicolon .variableEnd
  return .var name initializer

def expressionStatement (n : Nat) : Parser Stmt := do
  let e ← expression n
  let _ ← expect .semicolon .expressionEnd
  return .expression e

/-- An expression, unless the next token is of the given kind. -/
def expressionUnless (kind : Kind) (n : Nat) : Parser (Option Expr) := do
  if (← peek).kind = kind then return none else some <$> expression n

/-- The loop that a `for` statement stands for: the initializer runs in a block of its own, and
the increment follows the body in a block around both. -/
def forLoop (initializer : Option Stmt) (condition increment : Option Expr) (body : Stmt) :
    Stmt :=
  let body := match increment with
    | none => body
    | some e => .block [body,.expression e]
  let loop := Stmt.loop (condition.getD (.literal (.boolean true))) body
  match initializer with
  | none => loop
  | some s => .block [s,loop]

/-- The first clause of a `for` statement, with its semicolon. -/
def forInitializer (n : Nat) : Parser (Option Stmt) := do
  match ← take? [.semicolon,.kwVar] with
  | none => some <$> expressionStatement n
  | some t => if t.kind = .semicolon then return none else some <$> varDeclaration n

def forStatement (keyword : Token) (statement : Parser Stmt) (n : Nat) : Parser Stmt := do
  let _ ← expect .leftParen .forClauses
  let initializer ← forInitializer n
  let condition ← expressionUnless .semicolon n
  let _ ← expect .semicolon .forConditionEnd
  let increment ← expressionUnless .rightParen n
  let _ ← expect .rightParen .forClausesEnd
  let body ← statement
  note (.forLoop keyword.line)
  return forLoop initializer condition increment body

def ifStatement (statement : Parser Stmt) (n : Nat) : Parser Stmt := do
  let _ ← expect .leftParen .ifCondition
  let condition ← expression n
  let _ ← expect .rightParen .ifConditionEnd
  let thenBranch ← statement
  match ← take? [.kwElse] with
  | none => return .branch condition thenBranch none
  | some _ => return .branch condition thenBranch (some (← statement))

def whileStatement (statement : Parser Stmt) (n : Nat) : Parser Stmt := do
  let _ ← expect .leftParen .whileCondition
  let condition ← expression n
  let _ ← expect .rightParen .whileConditionEnd
  return .loop condition (← statement)

def returnStatement (keyword : Token) (n : Nat) : Parser Stmt := do
  let value ← expressionUnless .semicolon n
  let _ ← expect .semicolon .returnEnd
  return .return keyword value

def printStatement (n : Nat) : Parser Stmt := do
  let e ← expression n
  let _ ← expect .semicolon .printEnd
  return .print e

def statement (inner : Parser Stmt) (declaration : Parser (Option Stmt)) (n : Nat) :
    Parser Stmt := do
  match ← take? [.kwFor,.kwIf,.kwWhile,.kwReturn,.leftBrace,.kwPrint] with
  | none => expressionStatement n
  | some t => match t.kind with
    | .kwFor => forStatement t inner n
    | .kwIf => ifStatement inner n
    | .kwWhile => whileStatement inner n
    | .kwReturn => returnStatement t n
    | .leftBrace => .block <$> block declaration n
    | _ => printStatement n

/-- Tokens from the next statement boundary on: behind a semicolon or at a word that starts a
statement. `previous` has been passed over. -/
def boundary : Token → List Token → List Token
  | _, [] => []
  | previous, t :: ts =>
    if t.isEof ∨ previous.kind = .semicolon ∨ t.kind.startsStatement then t :: ts
    else boundary t ts

/-- What is read next after an error: the token in the way is passed over, then all others up to a
statement boundary. -/
def recover : List Token → List Token
  | [] => []
  | t :: ts => if t.isEof then t :: ts else boundary t ts

/-- A declaration, or nothing when it had an error; the error is recorded. -/
def recovering (p : Parser Stmt) : Parser (Option Stmt) := fun r =>
  match p r with
  | .ok s r => .ok (some s) r
  | .error e r => .ok none { (r.note (.recovering e)).record e with rest := recover r.rest }

/-- Any declaration, given the rules for a statement and for a declaration further on. -/
def declarationOf (statement : Parser Stmt) (declaration : Parser (Option Stmt)) (n : Nat) :
    Parser (Option Stmt) := do
  note (.declaration (← peek).line)
  recovering do
    match ← take? [.kwClass,.kwFun,.kwVar] with
    | none => statement
    | some t => match t.kind with
      | .kwClass => classDeclaration declaration n
      | .kwFun => .function <$> function .function declaration n
      | _ => varDeclaration n

mutual

def innerStatement : Nat → Parser Stmt
  | 0 => fail .expectedExpression
  | n + 1 => statement (innerStatement n) (declaration n) (n + 1)

def declaration : Nat → Parser (Option Stmt)
  | 0 => recovering (fail .expectedExpression)
  | n + 1 =>
    declarationOf (statement (innerStatement n) (declaration n) (n + 1)) (declaration n) (n + 1)

end

end Parser

/-- The outcome of a parse. -/
structure Parsed where
  statements : List Stmt
  errors : List Error
  ids : ExprIds
  events : List Event

namespace Parsed

/-- What a reader has gathered, oldest first. -/
def ofReader (statements : List Stmt) (r : Reader) : Parsed where
  statements := statements
  errors := r.errors.reverse
  ids := ⟨r.allocated⟩
  events := (r.note (.parsed statements.length r.errors.length)).events.reverse

/-- A program, if there was no error. -/
def result (p : Parsed) : Except (List Error) (List Stmt) :=
  if p.errors.isEmpty then .ok p.statements else .error p.errors

end Parsed

/-- Parse a whole token list, taking identities from the given supply. -/
def parse (tokens : List Token) (ids : ExprIds) : Parsed :=
  let budget := tokens.length + 1
  let start : Reader := ⟨tokens,ids.allocated,[],[.parsing,.parserCreated tokens.length]⟩
  match Parser.manyUntil [.eof] (Parser.declaration budget) budget start with
  | .ok statements r => .ofReader statements r
  | .error e r => .ofReader [] (r.record e)

end Lox

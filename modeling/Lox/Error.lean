import Lox.Token

/-! Everything that can go wrong with a program, by cause. The wording is kept in one place. -/
namespace Lox

inductive LexicalFault
  | unexpected (c : Char)
  | unterminatedString
deriving DecidableEq

/-- Function declarations and methods share one grammar rule; errors tell them apart. -/
inductive FunctionKind
  | function
  | method
deriving DecidableEq

def FunctionKind.name : FunctionKind → String
  | function => "function"
  | method => "method"

/-- What the grammar asks for where something else stands. -/
inductive Expectation
  | className
  | superclassName
  | classBody
  | classEnd
  | functionName (kind : FunctionKind)
  | parametersStart (kind : FunctionKind)
  | parameterName
  | parametersEnd
  | functionBody (kind : FunctionKind)
  | variableName
  | variableEnd
  | forClauses
  | forConditionEnd
  | forClausesEnd
  | printEnd
  | expressionEnd
  | ifCondition
  | ifConditionEnd
  | whileCondition
  | whileConditionEnd
  | returnEnd
  | blockEnd
  | ternaryElse
  | propertyName
  | argumentsEnd
  | superDot
  | superMethod
  | groupEnd
deriving DecidableEq

namespace Expectation

def message : Expectation → String
  | className => "Expected class name."
  | superclassName => "Expected superclass name."
  | classBody => "Expected '\x7b' before class body."
  | classEnd => "Expected '\x7d' after class body."
  | functionName kind => "Expected " ++ kind.name ++ " name."
  | parametersStart kind => "Expected '(' after " ++ kind.name ++ " name."
  | parameterName => "Expected parameter name."
  | parametersEnd => "Expected ')' after parameters."
  | functionBody kind => "Expected '\x7b' before " ++ kind.name ++ " body."
  | variableName => "Expected variable name."
  | variableEnd => "Expected ';' after variable declaration."
  | forClauses => "Expected '(' after 'for'."
  | forConditionEnd => "Expected ';' after loop condition."
  | forClausesEnd => "Expected ')' after for clauses."
  | printEnd => "Expected ';' after value."
  | expressionEnd => "Expected ';' after expression."
  | ifCondition => "Expected '(' after 'if'."
  | ifConditionEnd => "Expected ')' after if condition."
  | whileCondition => "Expected '(' after 'while'."
  | whileConditionEnd => "Expected ')' after condition."
  | returnEnd => "Expected ';' after return value."
  | blockEnd => "Expected '\x7d' after block."
  | ternaryElse => "Expected ':' after then branch of '?'."
  | propertyName => "Expected property name after '.'."
  | argumentsEnd => "Expected ')' after arguments."
  | superDot => "Expected '.' after 'super'."
  | superMethod => "Expected superclass method name."
  | groupEnd => "Expected ')' after expression."

end Expectation

inductive SyntaxFault
  | expected (what : Expectation)
  | expectedExpression
  | invalidAssignmentTarget
  | tooManyParameters
  | tooManyArguments
deriving DecidableEq

inductive StaticFault
  | redeclared
  | ownInitializer
  | returnOutsideFunction
  | returnFromInitializer
  | inheritsItself
  | thisOutsideClass
  | superOutsideClass
  | superWithoutSuperclass
deriving DecidableEq

inductive RuntimeFault
  | undefinedVariable (name : String)
  | undefinedProperty (name : String)
  | notCallable
  | arity (expected given : Nat)
  | propertyOfNonInstance
  | fieldOfNonInstance
  | numberOperand
  | numberOperands
  | sumOperands
  | divisionByZero
  | superclassNotClass
deriving DecidableEq

/-- Disagreements between a syntax tree and the scopes it runs in. Trees put together by hand may meet them. A
program whose names have been resolved meets one only where it assigns to a local variable in the variable's own
initial value. -/
inductive InternalFault
  | superUnresolved
  | superNotClass
  | superWithoutThis
  | thisNotInstance
  | chainEnded (hop distance : Nat)
  | unbound (name : String) (distance : Nat)
  | unaryOperator (lexeme : String)
  | binaryOperator (lexeme : String)
deriving DecidableEq

/-- Failures of the place that output is written to. -/
inductive OutputFault
  | limitReached
  | flushFailed
deriving DecidableEq

/-- The greatest number of parameters and of arguments. -/
def maxArguments : Nat := 255

def LexicalFault.message : LexicalFault → String
  | unexpected c => "Unexpected character: " ++ String.singleton c
  | unterminatedString => "Unterminated string."

def SyntaxFault.message : SyntaxFault → String
  | expected what => what.message
  | expectedExpression => "Expected expression."
  | invalidAssignmentTarget => "Invalid assignment target."
  | tooManyParameters => "Can't have more than " ++ toString maxArguments ++ " parameters."
  | tooManyArguments => "Can't have more than " ++ toString maxArguments ++ " arguments."

def StaticFault.message : StaticFault → String
  | redeclared => "Already a variable with this name in this scope."
  | ownInitializer => "Can't read local variable in its own initializer."
  | returnOutsideFunction => "Can't return from top-level code."
  | returnFromInitializer => "Can't return a value from an initializer."
  | inheritsItself => "A class can't inherit from itself."
  | thisOutsideClass => "Can't use 'this' outside of a class."
  | superOutsideClass => "Can't use 'super' outside of a class."
  | superWithoutSuperclass => "Can't use 'super' in a class with no superclass."

def RuntimeFault.message : RuntimeFault → String
  | undefinedVariable name => "Undefined variable '" ++ name ++ "'."
  | undefinedProperty name => "Undefined property '" ++ name ++ "'."
  | notCallable => "Can only call functions and classes."
  | arity expected given =>
    "Expected " ++ toString expected ++ " arguments but got " ++ toString given ++ "."
  | propertyOfNonInstance => "Only instances have properties."
  | fieldOfNonInstance => "Only instances have fields."
  | numberOperand => "Operand must be a number."
  | numberOperands => "Operands must be numbers."
  | sumOperands => "Operands must be two numbers or strings."
  | divisionByZero => "Division by zero."
  | superclassNotClass => "Superclass must be a class."

def InternalFault.message : InternalFault → String
  | superUnresolved => "'super' was never resolved"
  | superNotClass => "'super' is not bound to a class"
  | superWithoutThis => "'super' scope has no 'this' scope inside it"
  | thisNotInstance => "'this' is not bound to an instance"
  | chainEnded hop distance =>
    "scope chain ended after " ++ toString hop ++ " of " ++ toString distance ++ " hops"
  | unbound name distance => "'" ++ name ++ "' not bound at distance " ++ toString distance
  | unaryOperator lexeme => "invalid unary operator '" ++ lexeme ++ "'"
  | binaryOperator lexeme => "invalid binary operator '" ++ lexeme ++ "'"

def OutputFault.message : OutputFault → String
  | limitReached => "output limit reached"
  | flushFailed => "flush failed"

/-- A fault and where it was found. -/
inductive Error
  | lexical (fault : LexicalFault) (line : Nat)
  | syntactic (fault : SyntaxFault) (found : Token)
  | static (fault : StaticFault) (found : Token)
  | runtime (fault : RuntimeFault) (line : Nat)
  | stackOverflow (line : Nat)
  | internal (fault : InternalFault)
  | output (fault : OutputFault)
deriving DecidableEq

namespace Error

/-- The line of the error, when it has one. -/
def line? : Error → Option Nat
  | lexical _ line | runtime _ line | stackOverflow line => some line
  | syntactic _ found | static _ found => some found.line
  | internal _ | output _ => none

/-- Found before anything was executed. -/
def isStatic : Error → Bool
  | lexical .. | syntactic .. | static .. => true
  | _ => false

def isRuntime (e : Error) : Bool := !e.isStatic

/-- Where a token stands, in the words of a diagnostic. -/
def place (found : Token) : String :=
  if found.isEof then " at end" else " at '" ++ found.lexeme ++ "'"

/-- The text of an error as it is reported. -/
def text : Error → String
  | lexical fault line => "[line " ++ toString line ++ "] Error: " ++ fault.message
  | syntactic fault found =>
    "[line " ++ toString found.line ++ "] Error" ++ place found ++ ": " ++ fault.message
  | static fault found =>
    "[line " ++ toString found.line ++ "] Error" ++ place found ++ ": " ++ fault.message
  | runtime fault line => fault.message ++ "\n[line " ++ toString line ++ "]"
  | stackOverflow line => "Stack overflow.\n[line " ++ toString line ++ "]"
  | internal fault => "Internal error: " ++ fault.message
  | output fault => fault.message

/-- The bare message; errors without one of their own give their whole text. -/
def message : Error → String
  | lexical fault _ => fault.message
  | syntactic fault _ => fault.message
  | static fault _ => fault.message
  | runtime fault _ => fault.message
  | e => e.text

end Error
end Lox

import Lox.Syntax

/-! Syntax trees as parenthesised text with the operator in front, such as `(+ 1.0 (* 2.0 3.0))`.
The text is for readers; it need not be readable back. -/
namespace Lox

/-- Integral numbers show every digit and one decimal place. -/
def Literal.numberLayout : Decimal.Layout where
  exactIntegers := true
  afterInteger := ".0"
  tie := .up
  positional := none
  infinity := "inf"
  negativeInfinity := "-inf"
  notANumber := "NaN"

def Literal.prefixForm : Literal → String
  | .number x => Literal.numberLayout.render x
  | .string text => text
  | .boolean b => if b then "true" else "false"
  | .nil => "nil"

/-- Parts in parentheses, separated by blanks. -/
def parenthesized (parts : List String) : String := "(" ++ " ".intercalate parts ++ ")"

mutual

def Expr.prefixForm : Expr → String
  | .literal value => value.prefixForm
  | .grouping inner => parenthesized ["group",inner.prefixForm]
  | .unary operator right => parenthesized [operator.lexeme,right.prefixForm]
  | .binary left operator right | .logical left operator right =>
    parenthesized [operator.lexeme,left.prefixForm,right.prefixForm]
  | .ternary condition ifTrue ifFalse =>
    parenthesized ["?:",condition.prefixForm,ifTrue.prefixForm,ifFalse.prefixForm]
  | .variable _ name => name.lexeme
  | .assign _ name value => parenthesized ["=",name.lexeme,value.prefixForm]
  | .call callee _ arguments =>
    parenthesized ("call" :: callee.prefixForm :: Expr.prefixForms arguments)
  | .get object name => parenthesized [".",object.prefixForm,name.lexeme]
  | .set object name value =>
    parenthesized ["=",parenthesized [".",object.prefixForm,name.lexeme],value.prefixForm]
  | .this _ _ => "this"
  | .super _ _ method => parenthesized ["super",method.lexeme]

def Expr.prefixForms : List Expr → List String
  | [] => []
  | e :: es => e.prefixForm :: Expr.prefixForms es

end

mutual

def Stmt.prefixForm : Stmt → String
  | .expression e => parenthesized [";",e.prefixForm]
  | .print e => parenthesized ["print",e.prefixForm]
  | .var name initializer =>
    parenthesized ("var" :: name.lexeme :: (initializer.map Expr.prefixForm).toList)
  | .block body => parenthesized ("block" :: Stmt.prefixForms body)
  | .branch condition thenBranch elseBranch =>
    parenthesized
      ("if" :: condition.prefixForm :: thenBranch.prefixForm :: Stmt.prefixForm? elseBranch)
  | .loop condition body => parenthesized ["while",condition.prefixForm,body.prefixForm]
  | .function declaration => Declaration.prefixForm declaration
  | .return _ value => parenthesized ("return" :: (value.map Expr.prefixForm).toList)
  | .class name superclass methods =>
    let parent := match superclass with
      | none => []
      | some e => ["<",e.prefixForm]
    parenthesized ("class" :: name.lexeme :: (parent ++ Declaration.prefixForms methods))

def Stmt.prefixForm? : Option Stmt → List String
  | none => []
  | some s => [s.prefixForm]

def Stmt.prefixForms : List Stmt → List String
  | [] => []
  | s :: ss => s.prefixForm :: Stmt.prefixForms ss

def Declaration.prefixForm : Declaration Stmt → String
  | ⟨name,parameters,body⟩ =>
    parenthesized
      ("fun" :: name.lexeme :: parenthesized (parameters.map Token.lexeme) :: Stmt.prefixForms body)

def Declaration.prefixForms : List (Declaration Stmt) → List String
  | [] => []
  | d :: ds => Declaration.prefixForm d :: Declaration.prefixForms ds

end

end Lox

import Lox.Decimal.Layout

/-! Tokens: the words of a program, each with the line it ends on. -/
namespace Lox

inductive Kind
  | leftParen
  | rightParen
  | leftBrace
  | rightBrace
  | comma
  | dot
  | minus
  | plus
  | semicolon
  | slash
  | star
  | question
  | colon
  | bang
  | bangEqual
  | equal
  | equalEqual
  | greater
  | greaterEqual
  | less
  | lessEqual
  | identifier
  | string (contents : String)
  | number (value : Float)
  | kwAnd
  | kwClass
  | kwElse
  | kwFalse
  | kwFun
  | kwFor
  | kwIf
  | kwNil
  | kwOr
  | kwPrint
  | kwReturn
  | kwSuper
  | kwThis
  | kwTrue
  | kwVar
  | kwWhile
  | eof
deriving DecidableEq

namespace Kind

/-- The upper-case name of a kind, without the value it carries. -/
def name : Kind → String
  | leftParen => "LEFT_PAREN"
  | rightParen => "RIGHT_PAREN"
  | leftBrace => "LEFT_BRACE"
  | rightBrace => "RIGHT_BRACE"
  | comma => "COMMA"
  | dot => "DOT"
  | minus => "MINUS"
  | plus => "PLUS"
  | semicolon => "SEMICOLON"
  | slash => "SLASH"
  | star => "STAR"
  | question => "QUESTION"
  | colon => "COLON"
  | bang => "BANG"
  | bangEqual => "BANG_EQUAL"
  | equal => "EQUAL"
  | equalEqual => "EQUAL_EQUAL"
  | greater => "GREATER"
  | greaterEqual => "GREATER_EQUAL"
  | less => "LESS"
  | lessEqual => "LESS_EQUAL"
  | identifier => "IDENTIFIER"
  | string _ => "STRING"
  | number _ => "NUMBER"
  | kwAnd => "AND"
  | kwClass => "CLASS"
  | kwElse => "ELSE"
  | kwFalse => "FALSE"
  | kwFun => "FUN"
  | kwFor => "FOR"
  | kwIf => "IF"
  | kwNil => "NIL"
  | kwOr => "OR"
  | kwPrint => "PRINT"
  | kwReturn => "RETURN"
  | kwSuper => "SUPER"
  | kwThis => "THIS"
  | kwTrue => "TRUE"
  | kwVar => "VAR"
  | kwWhile => "WHILE"
  | eof => "EOF"

/-- The sixteen reserved words. -/
def keywords : List (String × Kind) :=
  [("and",kwAnd),("class",kwClass),("else",kwElse),("false",kwFalse),("fun",kwFun),("for",kwFor),
    ("if",kwIf),("nil",kwNil),("or",kwOr),("print",kwPrint),("return",kwReturn),("super",kwSuper),
    ("this",kwThis),("true",kwTrue),("var",kwVar),("while",kwWhile)]

/-- The kind of an identifier-shaped lexeme. -/
def ofWord (lexeme : String) : Kind := (keywords.lookup lexeme).getD identifier

/-- Kinds that begin a declaration or a statement of their own. -/
def startsStatement : Kind → Bool
  | kwClass | kwFun | kwVar | kwFor | kwIf | kwWhile | kwPrint | kwReturn => true
  | _ => false

end Kind

structure Token where
  kind : Kind
  lexeme : String
  line : Nat
deriving DecidableEq

namespace Token

/-- The mark at the end of every token list. -/
def eof (line : Nat) : Token := ⟨.eof,"",line⟩

/-- A name that stands in no source text. -/
def synthetic (name : String) (line : Nat) : Token := ⟨.identifier,name,line⟩

def isEof (t : Token) : Bool := t.kind == .eof

/-- Integral values below 10^15 show one decimal place, greater ones none. -/
def numberLayout (x : Float) : Decimal.Layout where
  exactIntegers := false
  afterInteger := if (Decimal.Binary64.ofFloat x).whole < Nat.pow 10 15 then ".0" else ""
  tie := .up
  positional := none
  infinity := "inf"
  negativeInfinity := "-inf"
  notANumber := "NaN"

/-- Kind, lexeme and literal value. -/
def text (t : Token) : String :=
  let value := match t.kind with
    | .string contents => contents
    | .number x => (numberLayout x).render x
    | _ => "null"
  t.kind.name ++ " " ++ t.lexeme ++ " " ++ value

end Token
end Lox

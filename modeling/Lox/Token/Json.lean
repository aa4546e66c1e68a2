import Lox.Token
import Lox.Text.Quoted

/-! Tokens as JSON, indented by two blanks a level. -/
namespace Lox
namespace Token

/-- Exponents are used below 10^-5 and from 10^16 on. Numbers too great for a double are `null`. -/
def jsonLayout : Decimal.Layout where
  exactIntegers := false
  afterInteger := ".0"
  tie := .even
  positional := some (-5,15)
  infinity := "null"
  negativeInfinity := "null"
  notANumber := "null"

/-- Kinds that carry a value are objects with the kind as their only key. -/
def kindJson (k : Kind) : String :=
  let tagged (value : String) :=
    "\x7b\n      " ++ Text.jsonString k.name ++ ": " ++ value ++ "\n    \x7d"
  match k with
  | .string contents => tagged (Text.jsonString contents)
  | .number x => tagged (jsonLayout.render x)
  | k => Text.jsonString k.name

def json (t : Token) : String :=
  "  \x7b\n    \"token_type\": " ++ kindJson t.kind ++
    ",\n    \"lexeme\": " ++ Text.jsonString t.lexeme ++
    ",\n    \"line\": " ++ toString t.line ++ "\n  \x7d"

/-- A list of tokens, which is never empty, since the end mark is among them. -/
def listJson (ts : List Token) : String := "[\n" ++ ",\n".intercalate (ts.map json) ++ "\n]"

end Token
end Lox

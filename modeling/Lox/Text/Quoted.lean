import Lox.Text.Extending
import Lox.Text.Invisible

/-! Text between double quotes, with the characters that may not stand there written as
escapes. -/
namespace Lox
namespace Text

/-- Lower-case hexadecimal digits. -/
def hex (n : Nat) : String := String.ofList (Nat.toDigits 16 n)

/-- Hexadecimal digits with zeros in front up to a width. -/
def hexPadded (width n : Nat) : String :=
  let digits := Nat.toDigits 16 n
  String.ofList (List.replicate (width - digits.length) '0' ++ digits)

/-- Put quotes around a text and replace the characters that have an escape. -/
def quoteWith (escape : Char → Option String) (text : String) : String :=
  let parts := text.toList.map fun c => (escape c).getD (String.singleton c)
  "\"" ++ String.join parts ++ "\""

/-- Escapes of names that are shown for inspection: what could not be seen, or would join the
character before it, is shown by its code point. -/
def inspectionEscape : Char → Option String
  | '"' => some "\\\""
  | '\\' => some "\\\\"
  | '\n' => some "\\n"
  | '\r' => some "\\r"
  | '\t' => some "\\t"
  | '\x00' => some "\\0"
  | c =>
    if isExtending c || isInvisible c then some ("\\u\x7b" ++ hex c.toNat ++ "\x7d") else none

/-- Escapes of JSON strings. Characters from U+0020 on other than the quote and the backslash stand
for themselves. -/
def jsonEscape : Char → Option String
  | '"' => some "\\\""
  | '\\' => some "\\\\"
  | '\n' => some "\\n"
  | '\r' => some "\\r"
  | '\t' => some "\\t"
  | '\x08' => some "\\b"
  | '\x0c' => some "\\f"
  | c => if c.toNat < 0x20 then some ("\\u" ++ hexPadded 4 c.toNat) else none

/-- A name as it is shown for inspection. -/
def inspect (text : String) : String := quoteWith inspectionEscape text

def jsonString (text : String) : String := quoteWith jsonEscape text

end Text
end Lox

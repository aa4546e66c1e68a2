import Lox.Log

/-! From source text to tokens. The text is cut into pieces that cover it, the first piece at each
point being the longest that the language knows; lines and byte offsets follow from the pieces
before it. -/
namespace Lox

/-- What a stretch of source text is. -/
inductive Shape
  | token (kind : Kind)
  | blank
  | comment
  | stray (c : Char)
  | unclosed
deriving DecidableEq

structure Piece where
  shape : Shape
  text : List Char
deriving DecidableEq

namespace Piece

def isBlank (c : Char) : Bool := c == ' ' || c == '\r' || c == '\t' || c == '\n'

/-- Letters and digits of names are ASCII. -/
def isNameStart (c : Char) : Bool := c.isAlpha || c == '_'

def isNameRest (c : Char) : Bool := c.isAlphanum || c == '_'

/-- The kind of a character that is a token on its own. -/
def punctuator? : Char → Option Kind
  | '(' => some .leftParen
  | ')' => some .rightParen
  | '{' => some .leftBrace
  | '}' => some .rightBrace
  | ',' => some .comma
  | '.' => some .dot
  | '-' => some .minus
  | '+' => some .plus
  | ';' => some .semicolon
  | '*' => some .star
  | '?' => some .question
  | ':' => some .colon
  | _ => none

/-- The kinds of a character without and with `=` behind it. -/
def operator? : Char → Option (Kind × Kind)
  | '!' => some (.bang,.bangEqual)
  | '=' => some (.equal,.equalEqual)
  | '<' => some (.less,.lessEqual)
  | '>' => some (.greater,.greaterEqual)
  | _ => none

/-- Digits, and a point with digits behind it when there is one, split off from the rest. -/
def spanNumber (cs : List Char) : List Char × List Char :=
  let whole := cs.takeWhile Char.isDigit
  match cs.dropWhile Char.isDigit with
  | '.' :: d :: rest =>
    if d.isDigit then
      (whole ++ '.' :: (d :: rest).takeWhile Char.isDigit,(d :: rest).dropWhile Char.isDigit)
    else (whole,'.' :: d :: rest)
  | rest => (whole,rest)

/-- The value of a run of digits. -/
def digitsValue (cs : List Char) : Nat := cs.foldl (fun n c => 10 * n + (c.toNat - '0'.toNat)) 0

/-- The double nearest to a number lexeme. -/
def numberValue (lexeme : List Char) : Float :=
  let whole := lexeme.takeWhile Char.isDigit
  let fraction := (lexeme.dropWhile Char.isDigit).drop 1
  Float.ofScientific (digitsValue (whole ++ fraction)) true fraction.length

/-- The first piece of the text `c :: cs`, and the text behind it. -/
def first (c : Char) (cs : List Char) : Piece × List Char :=
  if isBlank c then (⟨.blank,[c]⟩,cs)
  else if let some kind := punctuator? c then (⟨.token kind,[c]⟩,cs)
  else if let some (short,long) := operator? c then
    match cs with
    | '=' :: rest => (⟨.token long,[c,'=']⟩,rest)
    | _ => (⟨.token short,[c]⟩,cs)
  else if c = '/' then
    match cs with
    | '/' :: rest =>
      (⟨.comment,c :: '/' :: rest.takeWhile (· ≠ '\n')⟩,rest.dropWhile (· ≠ '\n'))
    | _ => (⟨.token .slash,[c]⟩,cs)
  else if c = '"' then
    let contents := cs.takeWhile (· ≠ '"')
    match cs.dropWhile (· ≠ '"') with
    | [] => (⟨.unclosed,c :: contents⟩,[])
    | q :: rest => (⟨.token (.string (String.ofList contents)),c :: (contents ++ [q])⟩,rest)
  else if c.isDigit then
    let number := spanNumber (c :: cs)
    (⟨.token (.number (numberValue number.1)),number.1⟩,number.2)
  else if isNameStart c then
    let lexeme := c :: cs.takeWhile isNameRest
    (⟨.token (Kind.ofWord (String.ofList lexeme)),lexeme⟩,cs.dropWhile isNameRest)
  else (⟨.stray c,[c]⟩,cs)

theorem spanNumber_append (cs : List Char) : (spanNumber cs).1 ++ (spanNumber cs).2 = cs := by
  have h := List.takeWhile_append_dropWhile (p := Char.isDigit) (l := cs)
  unfold spanNumber
  split
  next d rest hd =>
    split
    · simp only [List.append_assoc, List.cons_append, List.takeWhile_append_dropWhile]
      rw [← hd, h]
    · simp only [← hd, h]
  next => exact h

theorem spanNumber_ne_nil {c : Char} (hc : c.isDigit) (cs : List Char) :
    (spanNumber (c :: cs)).1 ≠ [] := by
  unfold spanNumber
  split
  · split <;> simp [hc]
  · simp [hc]

/-- No character is lost between a piece and the text behind it. -/
theorem first_append (c : Char) (cs : List Char) :
    (first c cs).1.text ++ (first c cs).2 = c :: cs := by
  unfold first
  repeat' split
  all_goals simp_all [spanNumber_append]
  all_goals
    rename_i h
    simpa [h] using List.takeWhile_append_dropWhile (p := fun x => !decide (x = '"')) (l := cs)

theorem first_ne_nil (c : Char) (cs : List Char) : (first c cs).1.text ≠ [] := by
  unfold first
  repeat' split
  all_goals simp_all [spanNumber_ne_nil]

theorem length_first_le (c : Char) (cs : List Char) : (first c cs).2.length ≤ cs.length := by
  have h := congrArg List.length (first_append c cs)
  have hpos := List.length_pos_iff.mpr (first_ne_nil c cs)
  simp only [List.length_append, List.length_cons] at h
  omega

/-- The pieces that a text is cut into. -/
def cut : List Char → List Piece
  | [] => []
  | c :: cs => (first c cs).1 :: cut (first c cs).2
termination_by cs => cs.length
decreasing_by simpa using Nat.lt_succ_of_le (length_first_le c cs)

/-- The pieces cover the text. -/
theorem flatMap_cut (cs : List Char) : (cut cs).flatMap text = cs := by
  fun_induction cut cs with
  | case1 => rfl
  | case2 c cs ih => simpa [ih] using first_append c cs

def newlines (p : Piece) : Nat := p.text.count '\n'

def bytes (p : Piece) : Nat := (String.ofList p.text).utf8ByteSize

end Piece

/-- The lines and bytes that lie before a point of the text; the first line is line 1. -/
structure Position where
  line : Nat
  byte : Nat
deriving DecidableEq

namespace Position

def start : Position := ⟨1,0⟩

def advance (here : Position) (p : Piece) : Position :=
  ⟨here.line + p.newlines,here.byte + p.bytes⟩

end Position

/-- What the scanner reports, in the order of the text. -/
inductive Item
  | token (t : Token)
  | error (e : Error)
deriving DecidableEq

namespace Item

def token? : Item → Option Token
  | token t => some t
  | error _ => none

def error? : Item → Option Error
  | token _ => none
  | error e => some e

end Item

namespace Piece

/-- The item of a piece that starts at a point: a token has the line it ends on, an error the line
it starts on. -/
def item? (p : Piece) (here : Position) : Option Item :=
  match p.shape with
  | .token kind => some (.token ⟨kind,String.ofList p.text,(here.advance p).line⟩)
  | .blank | .comment => none
  | .stray c => some (.error (.lexical (.unexpected c) here.line))
  | .unclosed => some (.error (.lexical .unterminatedString here.line))

end Piece

/-- Each piece with the point it starts at. -/
def place : Position → List Piece → List (Position × Piece)
  | _, [] => []
  | here, p :: ps => (here,p) :: place (here.advance p) ps

/-- A text cut into pieces. -/
structure Scan where
  bytes : Nat
  pieces : List (Position × Piece)
  lastLine : Nat

def scan (source : String) : Scan :=
  let pieces := Piece.cut source.toList
  ⟨source.utf8ByteSize,place .start pieces,(pieces.foldl Position.advance .start).line⟩

namespace Scan

/-- Tokens and errors in the order of the text, with the end mark last. -/
def items (s : Scan) : List Item :=
  s.pieces.filterMap (fun (here,p) => p.item? here) ++ [.token (.eof s.lastLine)]

def tokens (s : Scan) : List Token := s.items.filterMap Item.token?

def errors (s : Scan) : List Error := s.items.filterMap Item.error?

/-- What scanning a text reports about itself. -/
def events (s : Scan) : List Event :=
  let faults := s.pieces.flatMap fun (here,p) =>
    match p.item? here with
    | some (.error e) => [.errorCreated e,.lexicalError here.byte e]
    | _ => []
  .scanning s.bytes :: faults ++ [.scanned s.tokens.length s.errors.length]

end Scan
end Lox

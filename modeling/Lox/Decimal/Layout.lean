import Lox.Decimal.Shortest

/-! How a number is laid out as text. A place that writes numbers states its choices in one
`Layout`. -/
namespace Lox
namespace Decimal

structure Layout where
  /-- An integral number shows every digit it has, not the shortest ones followed by zeros. -/
  exactIntegers : Bool
  /-- Follows an integral number that is written without an exponent. -/
  afterInteger : String
  tie : Tie
  /-- The least and the greatest place of the first digit that are written without an exponent. -/
  positional : Option (Int × Int)
  infinity : String
  negativeInfinity : String
  notANumber : String

def zeros (n : Nat) : String := String.ofList (List.replicate n '0')

/-- Digits in their places, with a point where the exponent is negative. -/
def Digits.positional (d : Digits) : String :=
  let text := toString d.digits
  if 0 ≤ d.exponent then text ++ zeros d.exponent.toNat
  else
    let places := (-d.exponent).toNat
    if places < text.length then
      let whole := text.length - places
      String.ofList (text.toList.take whole) ++ "." ++ String.ofList (text.toList.drop whole)
    else "0." ++ zeros (places - text.length) ++ text

/-- One digit, the others behind a point, and the place of the first with its sign. -/
def Digits.scientific (d : Digits) : String :=
  let text := (toString d.digits).toList
  let place := d.exponent + (text.length - 1)
  let mantissa := match text with
    | [] => ""
    | [c] => String.ofList [c]
    | c :: cs => String.ofList (c :: '.' :: cs)
  mantissa ++ "e" ++ (if place < 0 then "-" else "+") ++ toString place.natAbs

/-- The text of the absolute value of a finite number. -/
def Layout.magnitude (layout : Layout) (m : Nat) (q : Int) : String :=
  let value := Binary64.finite false m q
  let suffix := if value.isIntegral then layout.afterInteger else ""
  if layout.exactIntegers && value.isIntegral then toString value.whole ++ suffix
  else
    let d := shortest layout.tie m q
    match layout.positional with
    | none => d.positional ++ suffix
    | some (least,greatest) =>
      let place := d.exponent + ((toString d.digits).length - 1)
      if least ≤ place ∧ place ≤ greatest then d.positional ++ suffix else d.scientific

def Layout.render (layout : Layout) (x : Float) : String :=
  match Binary64.ofFloat x with
  | .nan => layout.notANumber
  | .infinite negative => if negative then layout.negativeInfinity else layout.infinity
  | .finite negative m q => (if negative then "-" else "") ++ layout.magnitude m q

end Decimal
end Lox

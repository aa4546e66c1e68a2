import Lox.Decimal.Binary64

/-! The fewest decimal digits that read back as a given double. Of the decimals
`k · 10 ^ g` only the two neighbours of the number can be nearest, so each grid is decided by
one exact division. -/
namespace Lox
namespace Decimal

/-- Which way to go from the middle of two decimals that both read back. -/
inductive Tie
  | up
  | even
deriving DecidableEq, Repr

/-- `digits · 10 ^ exponent` -/
structure Digits where
  digits : Nat
  exponent : Int
deriving DecidableEq, Repr

namespace Digits

/-- The same number without zeros at the end of its digits, at most `fuel` of them. -/
def trim : Nat → Digits → Digits
  | 0, d => d
  | fuel + 1, d =>
    if d.digits ≠ 0 ∧ d.digits % 10 = 0 then trim fuel ⟨d.digits / 10, d.exponent + 1⟩ else d

end Digits

/-- Numerator and denominator of `m · 2 ^ q / 10 ^ g`. -/
def onGrid (m : Nat) (q g : Int) : Nat × Nat :=
  (m * Nat.pow 2 q.toNat * Nat.pow 10 (-g).toNat, Nat.pow 2 (-q).toNat * Nat.pow 10 g.toNat)

/-- The doubles around `m · 2 ^ q` lie `2 ^ q` away, save that below the least
significand the gap is half as wide. -/
def gapBelow (m : Nat) (q : Int) : Nat :=
  if m = Nat.pow 2 52 ∧ q ≠ -1074 then 2 else 1

/-- The multiple of `10 ^ g` nearest to `m · 2 ^ q` among those that read back as it. The ends of
the interval read back exactly when the significand is even. -/
def nearest? (tie : Tie) (m : Nat) (q g : Int) : Option Nat :=
  let (a,b) := onGrid m q g
  let k := a / b
  let r := a % b
  let reads (distance : Nat) : Bool :=
    if m % 2 = 0 then distance ≤ a else distance < a
  let below := reads (r * (2 * m * gapBelow m q))
  let above := reads ((b - r) * (2 * m))
  if below ∧ above then
    if 2 * r < b then some k
    else if b < 2 * r then some (k + 1)
    else match tie with
      | .up => some (k + 1)
      | .even => some (if k % 2 = 0 then k else k + 1)
  else if below then some k
  else if above then some (k + 1)
  else none

/-- How often `a` must be multiplied by ten to reach `b`. -/
def leadingZeros : Nat → Nat → Nat → Nat
  | 0, _, _ => 0
  | fuel + 1, a, b => if b ≤ a then 0 else leadingZeros fuel (10 * a) b + 1

/-- The place of the first digit: `10 ^ leading ≤ m · 2 ^ q < 10 ^ (leading + 1)` for `0 < m`. -/
def leading (m : Nat) (q : Int) : Int :=
  let a := m * Nat.pow 2 q.toNat
  let b := Nat.pow 2 (-q).toNat
  if b ≤ a then (Nat.toDigits 10 (a / b)).length - 1
  else -(leadingZeros (b.log2 + 1) a b : Int)

/-- The first grid, from coarse to fine, with a decimal that reads back; seventeen digits
always suffice. -/
def shortest (tie : Tie) (m : Nat) (q : Int) : Digits :=
  if m = 0 then ⟨0,0⟩
  else
    let e := leading m q
    let found := (List.range 17).findSome? fun (n : Nat) =>
      (nearest? tie m q (e - n)).map fun k => Digits.mk k (e - n)
    Digits.trim 17 (found.getD ⟨0,0⟩)

end Decimal
end Lox

/-! The number a double stands for: a sign, a natural significand and a power of two. -/
namespace Lox
namespace Decimal

/-- A finite double is `±significand · 2 ^ exponent`. -/
inductive Binary64
  | nan
  | infinite (negative : Bool)
  | finite (negative : Bool) (significand : Nat) (exponent : Int)
deriving DecidableEq, Repr

namespace Binary64

/-- Subnormal numbers, whose exponent field is zero, have no hidden leading bit. -/
def ofBits (bits : UInt64) : Binary64 :=
  let negative := decide (Nat.pow 2 63 ≤ bits.toNat)
  let field : Nat := bits.toNat / Nat.pow 2 52 % Nat.pow 2 11
  let fraction : Nat := bits.toNat % Nat.pow 2 52
  if field = 2047 then
    if fraction = 0 then .infinite negative else .nan
  else if field = 0 then .finite negative fraction (-1074)
  else .finite negative (Nat.pow 2 52 + fraction) ((field : Int) - 1075)

def ofFloat (x : Float) : Binary64 := ofBits x.toBits

/-- The whole part of the absolute value; nothing for an infinity or no number. -/
def whole : Binary64 → Nat
  | .finite _ m q => m * Nat.pow 2 q.toNat / Nat.pow 2 (-q).toNat
  | _ => 0

/-- Whether the fractional part is zero. -/
def isIntegral : Binary64 → Bool
  | .finite _ m q => m * Nat.pow 2 q.toNat % Nat.pow 2 (-q).toNat == 0
  | _ => false

end Binary64
end Decimal
end Lox

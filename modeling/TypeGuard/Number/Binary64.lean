import TypeGuard.Number.Decimal

/-! Binary numbers with 53 significant bits, as exact data. No operation here rounds but reading a
decimal, so equality of numbers is equality of their values. -/

namespace TypeGuard

/-- A finite value, or one of the special data. Every not-a-number carries a tag, and two of them
are the same datum only if the tags agree. -/
inductive Binary64 where
  | finite (value : Dyadic)
  | negZero
  | inf (negative : Bool)
  | nan (tag : Nat)
deriving DecidableEq

/-- The quotient rounded to the nearest whole number, a half to the even one. -/
def roundDiv (num den : Nat) : Nat :=
  let low := num / den
  let rest := num % den
  if 2 * rest < den then low
  else if den < 2 * rest then low + 1
  else if low % 2 = 0 then low
  else low + 1

/-- The largest `e` with `2 ^ e ≤ num / den`, for positive `num` and `den`. -/
def floorLog2 (num den : Nat) : Int :=
  let a := num.log2
  let b := den.log2
  let reached := if b ≤ a then den * Nat.pow 2 (a - b) ≤ num else den ≤ num * Nat.pow 2 (b - a)
  if reached then (a : Int) - b else (a : Int) - b - 1

namespace Binary64

def ofParts (negative : Bool) (mantissa : Nat) (exponent : Int) : Binary64 :=
  if mantissa = 0 then if negative then .negZero else .finite 0
  else .finite (.ofIntWithPrec (if negative then -mantissa else mantissa) (-exponent))

/-- The number nearest to a fraction, a half to the even mantissa. What is beyond the largest finite
number becomes infinite. -/
def nearest (negative : Bool) (num den : Nat) : Binary64 :=
  if num = 0 then ofParts negative 0 0
  else
    let q := max (floorLog2 num den - 52) (-1074)
    let m := if 0 ≤ q then roundDiv num (den * Nat.pow 2 q.toNat)
      else roundDiv (num * Nat.pow 2 (-q).toNat) den
    if 971 < q ∨ q = 971 ∧ Nat.pow 2 53 ≤ m then .inf negative
    else ofParts negative m q

/-- The number nearest to a decimal. From `10 ^ 401` on all are infinite and below `10 ^ -400` all
are zero, so no power is larger than the digits call for. -/
def ofDecimal (d : Decimal) : Binary64 :=
  if d.digits = 0 then ofParts d.negative 0 0
  else if 400 < d.exponent then .inf d.negative
  else if d.exponent < -(400 + d.digits.log2 : Int) then ofParts d.negative 0 0
  else nearest d.negative d.ratio.1 d.ratio.2

def isNegative : Binary64 → Bool
  | finite .zero => false
  | finite (.ofOdd n _ _) => n < 0
  | negZero => true
  | inf negative => negative
  | nan _ => false

/-- The whole number that a datum equals, if there is one. -/
def toInt? : Binary64 → Option Int
  | finite .zero => some 0
  | finite (.ofOdd n k _) => if k ≤ 0 then some (n * Nat.pow 2 (-k).toNat) else none
  | negZero => some 0
  | inf _ => none
  | nan _ => none

/-- Forgets the sign of a zero. -/
def unsignedZero : Binary64 → Binary64
  | negZero => finite 0
  | x => x

/-- Every finite number is a decimal. -/
def exactDecimal : Dyadic → Decimal
  | .zero => ⟨false, 0, 0⟩
  | .ofOdd n k _ =>
      if k ≤ 0 then ⟨n < 0, n.natAbs * Nat.pow 2 (-k).toNat, 0⟩
      else ⟨n < 0, n.natAbs * Nat.pow 5 k.toNat, -k⟩

end Binary64

end TypeGuard

import TypeGuard.Number.Binary64

/-! The text of a binary number: the fewest decimal digits that read back as it, and among those the
ones nearest to its value. -/

namespace TypeGuard.Binary64

/-- The position of the decimal point before the first significant digit: `num / den` is at least
`10 ^ (p - 1)` and less than `10 ^ p`. No finite number needs more than 400 leading zeros. -/
def pointOf (num den : Nat) : Int :=
  ((Nat.toDigits 10 (num * Nat.pow 10 400 / den)).length : Int) - 400

/-- The decimals with last place `unit` on either side of `num / den`, the nearer one first. -/
def neighbours (negative : Bool) (num den : Nat) (unit : Int) : Decimal × Decimal :=
  let n := if 0 ≤ unit then num else num * Nat.pow 10 (-unit).toNat
  let d := if 0 ≤ unit then den * Nat.pow 10 unit.toNat else den
  let near := roundDiv n d
  let other := if near = n / d then near + 1 else near - 1
  (⟨negative, near, unit⟩, ⟨negative, other, unit⟩)

/-- Tries one digit more at each step, and gives up on a shorter decimal after `tries` of them. -/
def searchDecimal (x : Dyadic) : (tries : Nat) → (unit : Int) → Decimal
  | 0, _ => exactDecimal x
  | tries + 1, unit =>
      let exact := exactDecimal x
      let pair := neighbours exact.negative exact.ratio.1 exact.ratio.2 unit
      if ofDecimal pair.1 = .finite x then pair.1
      else if ofDecimal pair.2 = .finite x then pair.2
      else searchDecimal x tries (unit - 1)

def shortestDecimal (x : Dyadic) : Decimal :=
  let exact := exactDecimal x
  searchDecimal x 17 (pointOf exact.ratio.1 exact.ratio.2 - 1)

/-- Significant digits without trailing zeros, and the position of the point before the first. -/
def significand (d : Decimal) : List Char × Int :=
  let digits := Nat.toDigits 10 d.digits
  ((digits.reverse.dropWhile (· = '0')).reverse, digits.length + d.exponent)

def positional (digits : List Char) (point : Int) : List Char :=
  if point ≤ 0 then '0' :: '.' :: (List.replicate (-point).toNat '0' ++ digits)
  else if (digits.length : Int) ≤ point then
    digits ++ List.replicate (point.toNat - digits.length) '0' ++ ['.', '0']
  else digits.take point.toNat ++ '.' :: digits.drop point.toNat

def exponential (digits : List Char) (point : Int) : List Char :=
  let e := point - 1
  let size := Nat.toDigits 10 e.natAbs
  let mantissa := match digits with
    | first :: [] => [first]
    | first :: rest => first :: '.' :: rest
    | [] => []
  mantissa ++ 'e' :: (if e < 0 then '-' else '+') ::
    (List.replicate (2 - size.length) '0' ++ size)

/-- Positional from `0.0001` up to sixteen places before the point, with an exponent of at least two
digits outside of that. -/
def layout (d : Decimal) : List Char :=
  let (digits, point) := significand d
  let body := if -4 < point ∧ point ≤ 16 then positional digits point else exponential digits point
  if d.negative then '-' :: body else body

def text : Binary64 → String
  | finite .zero => "0.0"
  | finite x => String.ofList (layout (shortestDecimal x))
  | negZero => "-0.0"
  | inf true => "-inf"
  | inf false => "inf"
  | nan _ => "nan"

end TypeGuard.Binary64

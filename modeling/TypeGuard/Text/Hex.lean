/-! Fixed-width lower-case hexadecimal. -/

namespace TypeGuard.Text

def hexDigit (n : Nat) : Char :=
  (n % 16).digitChar

/-- The last `width` hexadecimal digits of `n`. -/
def hex : (width : Nat) → (n : Nat) → List Char
  | 0, _ => []
  | width + 1, n => hex width (n / 16) ++ [hexDigit n]

end TypeGuard.Text

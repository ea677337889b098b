import TypeGuard.Text.Hex

/-! Escaped text: a string between double quotes in printable ASCII, one unit of sixteen bits after
the other. A code point beyond the basic plane is a pair of surrogates. -/

namespace TypeGuard.Text

/-- A code point. A surrogate is one, though it is no character. -/
abbrev CodePoint := Fin 0x110000

abbrev CodeUnit := Fin 0x10000

def CodePoint.units (n : CodePoint) : List CodeUnit :=
  if h : n.val < 0x10000 then [⟨n, h⟩]
  else [⟨0xd800 + (n.val - 0x10000) / 0x400, by omega⟩,
    ⟨0xdc00 + (n.val - 0x10000) % 0x400, by omega⟩]

theorem toNat_valid (c : Char) : c.toNat < 0xd800 ∨ 0xdfff < c.toNat ∧ c.toNat < 0x110000 :=
  c.valid

def points (s : String) : List CodePoint :=
  s.toList.map fun c => ⟨c.toNat, by have h := toNat_valid c; omega⟩

namespace Escaped

def unit (n : CodeUnit) : List Char :=
  '\\' :: 'u' :: hex 4 n

def encodeUnit (n : CodeUnit) : List Char :=
  if n = 0x22 ∨ n = 0x5c then ['\\', Char.ofNat n]
  else if n = 0x0a then ['\\', 'n']
  else if n = 0x0d then ['\\', 'r']
  else if n = 0x09 then ['\\', 't']
  else if n = 0x08 then ['\\', 'b']
  else if n = 0x0c then ['\\', 'f']
  else if 0x20 ≤ n ∧ n < 0x7f then [Char.ofNat n]
  else unit n

def encode (s : List CodePoint) : List Char :=
  '"' :: ((s.flatMap CodePoint.units).flatMap encodeUnit ++ ['"'])

end Escaped

def escaped (s : String) : String :=
  String.ofList (Escaped.encode (points s))

end TypeGuard.Text

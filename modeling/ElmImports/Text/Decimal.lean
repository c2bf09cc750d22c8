import ElmImports.Text.Blank

/-!
# Natural numbers in decimal

Numbers are written without leading zeros. Read, they may have leading zeros and a plus sign, and must
fit in 64 bits.
-/

namespace ElmImports.Decimal

def write (n : Nat) : Text :=
  Nat.toDigits 10 n

def digit (c : Char) : Nat :=
  c.toNat - '0'.toNat

/-- The value of a run of digits, the most significant first. -/
def value (digits : Text) : Nat :=
  digits.foldl (fun n c => 10 * n + digit c) 0

def largest : Nat := 0xFFFF_FFFF_FFFF_FFFF

def read? (t : Text) : Option Nat :=
  let digits := match t with
    | '+' :: rest => rest
    | _ => t
  if digits ≠ [] ∧ digits.all Char.isDigit ∧ value digits ≤ largest then some (value digits) else none

end ElmImports.Decimal

import Mathlib

/-!
# Numbers from text

`strtol` and `strtoul` with their common scanner `parse_unsigned`, and the conversion of the
C standard. They differ on a hexadecimal prefix without a digit, and on negative numbers that
do not fit into an `unsigned long`. A position in the text is what follows it.
-/

namespace RixuriOS.Libc

open List

def conversionDigit (c : Char) : Option Nat :=
  if '0' ≤ c ∧ c ≤ '9' then some (c.toNat - '0'.toNat)
  else if 'a' ≤ c ∧ c ≤ 'z' then some (c.toNat - 'a'.toNat + 10)
  else if 'A' ≤ c ∧ c ≤ 'Z' then some (c.toNat - 'A'.toNat + 10)
  else none

def isDigit (base : Nat) (c : Char) : Bool := (conversionDigit c).any (· < base)

def number (base value : Nat) (digits : List Char) : Nat :=
  digits.foldl (fun value c => value * base + (conversionDigit c).getD 0) value

section

variable {base : Nat}

end

/-! ## The conversion -/

section

variable {text : List Char} {base : Nat}

end

end RixuriOS.Libc

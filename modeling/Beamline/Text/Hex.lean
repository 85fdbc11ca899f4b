/-!
# Hexadecimal digits

* `Text.hexDigit`, `Text.hexDigit?` : the digit of a number below 16, and the number of a digit.
-/

namespace Beamline.Text

/-- The digit of a number below 16, a letter being small. -/
def hexDigit (n : Nat) : Char :=
  Nat.digitChar n

/-- The value of a digit, in small or capital letters. -/
def hexDigit? (c : Char) : Option Nat :=
  if c.isDigit then some (c.toNat - '0'.toNat)
  else if 'a' ≤ c ∧ c ≤ 'f' then some (c.toNat - 'a'.toNat + 10)
  else if 'A' ≤ c ∧ c ≤ 'F' then some (c.toNat - 'A'.toNat + 10)
  else none

theorem hexDigit?_hexDigit (n : Fin 16) : hexDigit? (hexDigit n) = some n.val := by
  revert n
  decide

end Beamline.Text

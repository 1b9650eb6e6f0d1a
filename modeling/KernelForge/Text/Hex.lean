/-!
# Hexadecimal text

Numbers in a fixed count of lowercase digits, and the numbers that digits of either case stand for.
-/
namespace KernelForge.Text.Hex

def digit (n : Nat) : Char := Char.ofNat (if n < 10 then '0'.toNat + n else 'a'.toNat + (n - 10))

def value? (c : Char) : Option Nat :=
  if '0' ≤ c ∧ c ≤ '9' then some (c.toNat - '0'.toNat)
  else if 'a' ≤ c ∧ c ≤ 'f' then some (c.toNat - 'a'.toNat + 10)
  else if 'A' ≤ c ∧ c ≤ 'F' then some (c.toNat - 'A'.toNat + 10)
  else none

/-- The last `width` digits of a number. -/
def fixed : Nat → Nat → List Char
  | 0, _ => []
  | width + 1, n => fixed width (n / 16) ++ [digit (n % 16)]

/-- The number of a text of digits, with the number of the digits before it. -/
def valueFrom (n : Nat) : List Char → Option Nat
  | [] => some n
  | c :: rest => (value? c).bind fun d => valueFrom (16 * n + d) rest

/-- The number of a text of at least one digit. -/
def parse? (text : List Char) : Option Nat :=
  if text.isEmpty then none else valueFrom 0 text

end KernelForge.Text.Hex

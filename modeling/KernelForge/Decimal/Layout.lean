import KernelForge.Decimal.Shortest
/-!
# Laying out decimals

How the digits of a decimal become text: with a point among the digits, or as a number between one
and ten times a power of ten. A `Layout` says which values are written in which way.
-/
namespace KernelForge.Decimal

def digitChars (n : Nat) : List Char := Nat.toDigits 10 n

/-- Decimals whose point stands between `least` and `most` digits to the right of the first digit's
left edge are written positionally; all others with an exponent. -/
structure Layout where
  least : Int
  most : Int

namespace Layout

def isPositional (l : Layout) (point : Int) : Bool := l.least ≤ point && point ≤ l.most

/-- Digits with a point after the first `point` of them. There is at least one digit on either side
of the point. -/
def positional (digits : List Char) (point : Int) : List Char :=
  if point ≤ 0 then
    '0' :: '.' :: (List.replicate (-point).toNat '0' ++ digits)
  else if digits.length ≤ point.toNat then
    digits ++ List.replicate (point.toNat - digits.length) '0' ++ ['.', '0']
  else
    digits.take point.toNat ++ '.' :: digits.drop point.toNat

/-- One digit, a point and the other digits if there are any, and the power of ten. -/
def scientific (digits : List Char) (point : Int) : List Char :=
  let exponent := 'e' :: (toString (point - 1)).toList
  match digits with
  | [] => exponent
  | [d] => d :: exponent
  | d :: rest => d :: '.' :: (rest ++ exponent)

/-- Zero is written `0.0`. -/
def write (l : Layout) (negative : Bool) (d : Scaled) : List Char :=
  let sign := if negative then ['-'] else []
  if d.digits = 0 then sign ++ ['0', '.', '0'] else
    let digits := digitChars d.digits
    let point := d.place + digits.length
    sign ++ if l.isPositional point then positional digits point else scientific digits point

end Layout

end KernelForge.Decimal

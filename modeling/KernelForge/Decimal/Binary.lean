/-!
# Binary floating-point words

A float is held as the natural number of its bit pattern. `BinaryFormat.datum` reads the pattern:
a finite value is a significand times a power of two.
-/
namespace KernelForge.Decimal

/-- The widths of the fraction field and of the exponent field. -/
structure BinaryFormat where
  fractionBits : Nat
  exponentBits : Nat
  deriving DecidableEq

namespace BinaryFormat

def single : BinaryFormat := ⟨23, 8⟩

def double : BinaryFormat := ⟨52, 11⟩

end BinaryFormat

/-- What a bit pattern stands for. -/
inductive Datum
  | nan
  | infinite (negative : Bool)
  /-- The value `significand * 2 ^ exponent`. `narrow` tells that the neighbour towards zero is
  only half as far away as the other one, as at a power of two. -/
  | finite (negative : Bool) (significand : Nat) (exponent : Int) (narrow : Bool)
  deriving DecidableEq

namespace BinaryFormat

/-- The number of fractions. It is also the leading bit that a normal significand leaves out. -/
def fractions (f : BinaryFormat) : Nat := Nat.pow 2 f.fractionBits

/-- The number of biased exponents. The last of them stands for no finite value. -/
def exponents (f : BinaryFormat) : Nat := Nat.pow 2 f.exponentBits

def fraction (f : BinaryFormat) (bits : Nat) : Nat := bits % f.fractions

def biasedExponent (f : BinaryFormat) (bits : Nat) : Nat := bits / f.fractions % f.exponents

def negative (f : BinaryFormat) (bits : Nat) : Bool :=
  bits / (f.fractions * f.exponents) % 2 == 1

/-- The exponent of the last place of the smallest finite values. -/
def minExponent (f : BinaryFormat) : Int := 2 - (f.exponents / 2 : Nat) - f.fractionBits

def datum (f : BinaryFormat) (bits : Nat) : Datum :=
  let fraction := f.fraction bits
  let biased := f.biasedExponent bits
  let negative := f.negative bits
  if biased = f.exponents - 1 then
    if fraction = 0 then .infinite negative else .nan
  else if biased = 0 then
    .finite negative fraction f.minExponent false
  else
    .finite negative (f.fractions + fraction) (f.minExponent + biased - 1)
      (fraction == 0 && biased != 1)

/-- Two patterns hold equal numbers: a NaN equals nothing, and both zeros are one number. -/
def sameNumber (f : BinaryFormat) (a b : Nat) : Bool :=
  match f.datum a, f.datum b with
  | .nan, _ => false
  | _, .nan => false
  | .finite _ 0 _ _, .finite _ 0 _ _ => true
  | x, y => x == y

end BinaryFormat

end KernelForge.Decimal

import KernelForge.Kind
import KernelForge.Decimal.Binary
import KernelForge.Decimal.Layout
/-!
# Literals

Constants of each kind and their source text. Floats are held as bit patterns, so that every value,
each NaN included, is kept exactly. Float text has the fewest digits that read back as the value.
-/
namespace KernelForge

open Decimal (BinaryFormat Layout Interval)

/-- A constant of one kind. The half-precision kinds carry their pattern of sixteen bits, since C
has no literals for them. -/
inductive Literal
  | i8 (v : Int8)
  | i16 (v : Int16)
  | i32 (v : Int32)
  | i64 (v : Int64)
  | u8 (v : UInt8)
  | u16 (v : UInt16)
  | u32 (v : UInt32)
  | u64 (v : UInt64)
  | fp16a (bits : UInt16)
  | fp16b (bits : UInt16)
  | fp32 (bits : UInt32)
  | fp64 (bits : UInt64)
  | bool (v : Bool)
  deriving DecidableEq

namespace Literal

def kind : Literal → Kind
  | i8 _ => .i8
  | i16 _ => .i16
  | i32 _ => .i32
  | i64 _ => .i64
  | u8 _ => .u8
  | u16 _ => .u16
  | u32 _ => .u32
  | u64 _ => .u64
  | fp16a _ => .fp16a
  | fp16b _ => .fp16b
  | fp32 _ => .fp32
  | fp64 _ => .fp64
  | bool _ => .bool

/-- Values from 0.0001 on and below 10 ^ 16 are written positionally. -/
def floatLayout : Layout := ⟨-3, 16⟩

/-- The text of a finite float ends in `suffix`. Floats that are not finite are written as the
macros of the C library. -/
def floatText (f : BinaryFormat) (bits : Nat) (suffix : String) : String :=
  match f.datum bits with
  | .nan => "NAN"
  | .infinite true => "-INFINITY"
  | .infinite false => "INFINITY"
  | .finite negative 0 _ _ => String.ofList (floatLayout.write negative ⟨0, 0⟩) ++ suffix
  | .finite negative significand exponent narrow =>
    let decimal := (Interval.around significand exponent narrow).shortest
    String.ofList (floatLayout.write negative decimal) ++ suffix

def text : Literal → String
  | i8 v => toString v.toInt
  | i16 v => toString v.toInt
  | i32 v => toString v.toInt
  | i64 v => toString v.toInt
  | u8 v => toString v.toNat
  | u16 v | fp16a v | fp16b v => toString v.toNat
  | u32 v => toString v.toNat
  | u64 v => toString v.toNat
  | fp32 b => floatText .single b.toNat "f"
  | fp64 b => floatText .double b.toNat ""
  | bool true => "true"
  | bool false => "false"

/-- Equality of constants as numbers of one kind: a NaN differs from itself and the two zeros of a
float kind agree. -/
def agrees : Literal → Literal → Bool
  | fp32 a, fp32 b => BinaryFormat.single.sameNumber a.toNat b.toNat
  | fp64 a, fp64 b => BinaryFormat.double.sameNumber a.toNat b.toNat
  | a, b => a == b

end Literal

end KernelForge

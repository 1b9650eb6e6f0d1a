/-!
# Element kinds

The thirteen kinds of value that a kernel variable can hold. Every kind has a type keyword, which
stands in declarations, and a name, which labels slots and describes variables.
-/
namespace KernelForge

inductive Kind
  | i8
  | i16
  | i32
  | i64
  | u8
  | u16
  | u32
  | u64
  /-- Half precision with five exponent bits, held as its bit pattern. -/
  | fp16a
  /-- Half precision with eight exponent bits, held as its bit pattern. -/
  | fp16b
  | fp32
  | fp64
  | bool
  deriving DecidableEq

namespace Kind

/-- Every kind, in the order of the slot catalogue. -/
def all : List Kind :=
  [i8, i16, i32, i64, u8, u16, u32, u64, fp16a, fp16b, fp32, fp64, bool]

/-- Both half-precision kinds are stored in an unsigned word of sixteen bits. -/
def keyword : Kind → String
  | i8 => "int8_t"
  | i16 => "int16_t"
  | i32 => "int32_t"
  | i64 => "int64_t"
  | u8 => "uint8_t"
  | u16 | fp16a | fp16b => "uint16_t"
  | u32 => "uint32_t"
  | u64 => "uint64_t"
  | fp32 => "float"
  | fp64 => "double"
  | bool => "bool"

def name : Kind → String
  | i8 => "i8"
  | i16 => "i16"
  | i32 => "i32"
  | i64 => "i64"
  | u8 => "u8"
  | u16 => "u16"
  | u32 => "u32"
  | u64 => "u64"
  | fp16a => "fp16a"
  | fp16b => "fp16b"
  | fp32 => "fp32"
  | fp64 => "fp64"
  | bool => "bool"

/-- The place of a kind in `all`. -/
def position (k : Kind) : Nat := all.idxOf k

def ofName? (s : String) : Option Kind := all.find? fun k => k.name == s

theorem ofName?_name (k : Kind) : ofName? k.name = some k := by cases k <;> decide

theorem name_injective {k l : Kind} (h : k.name = l.name) : k = l := by
  have := ofName?_name k
  rw [h, ofName?_name] at this
  exact (Option.some.inj this).symm

end Kind

end KernelForge

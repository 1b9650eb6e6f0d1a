import KernelForge.Literal
import KernelForge.Slot
/-!
# Variables

The leaves of an expression: named storage, possibly behind pointers and references, constants, and
the parameter slots of the enclosing function. A `Shape` is named storage without its name.
-/
namespace KernelForge

inductive Variable
  | scalar (kind : Kind) (name : String)
  | array (kind : Kind) (name : String) (length : Nat)
  | matrix (kind : Kind) (name : String) (dims : List Nat)
  | pointer (target : Variable)
  | reference (target : Variable)
  | literal (value : Literal)
  | slot (slot : Slot)
  deriving DecidableEq

namespace Variable

/-- The kind of an element. An indirection has the kind of its target. -/
def kind : Variable → Kind
  | scalar k _ | array k _ _ | matrix k _ _ => k
  | pointer v | reference v => v.kind
  | literal l => l.kind
  | slot s => s.kind

/-- The stored identifier. Constants and slots have none: their text is a value or a label. -/
def name? : Variable → Option String
  | scalar _ n | array _ n _ | matrix _ n _ => some n
  | pointer v | reference v => v.name?
  | literal _ | slot _ => none

def formName : Variable → String
  | scalar .. => "scalar"
  | array .. => "array"
  | matrix .. => "matrix"
  | pointer _ => "pointer"
  | reference _ => "reference"
  | literal _ => "literal"
  | slot _ => "placeholder"

/-- A bracketed number for each dimension. -/
def bracketed (dims : List Nat) : String :=
  String.join (dims.map fun d => "[" ++ toString d ++ "]")

/-- The text that declares the variable. There is none for a constant, nor for an indirection whose
target has no name. A matrix without dimensions has no brackets. -/
def declaration? : Variable → Option String
  | scalar k n => some (k.keyword ++ " " ++ n)
  | array k n length => some (k.keyword ++ " " ++ n ++ " " ++ bracketed [length])
  | matrix k n [] => some (k.keyword ++ " " ++ n)
  | matrix k n dims => some (k.keyword ++ " " ++ n ++ " " ++ bracketed dims)
  | pointer v | reference v => v.name?.map fun n => v.kind.keyword ++ " * " ++ n
  | slot s => some s.parameter
  | literal _ => none

/-- The text of the variable inside an expression. -/
def text : Variable → String
  | literal l => l.text
  | slot s => s.label
  | v => v.name?.getD ""

/-- The shape in words, such as `pointer to i32 array [4]`. -/
def describe : Variable → String
  | array k _ length => k.name ++ " array [" ++ toString length ++ "]"
  | matrix k _ dims => k.name ++ " matrix [" ++ ", ".intercalate (dims.map toString) ++ "]"
  | pointer v => "pointer to " ++ v.describe
  | reference v => "reference to " ++ v.describe
  | v => v.kind.name ++ " " ++ v.formName

/-- Equality of variables in which constants are compared as numbers. -/
def agrees : Variable → Variable → Bool
  | pointer v, pointer w => v.agrees w
  | reference v, reference w => v.agrees w
  | literal l, literal m => l.agrees m
  | v, w => v == w

end Variable

/-- The form of storage that a new name is to have. -/
inductive Shape
  | scalar (kind : Kind)
  | array (kind : Kind) (length : Nat)
  | matrix (kind : Kind) (dims : List Nat)
  | pointer (target : Shape)
  | reference (target : Shape)
  deriving DecidableEq

namespace Shape

/-- Storage of this shape under a name. -/
def named (name : String) : Shape → Variable
  | scalar k => .scalar k name
  | array k length => .array k name length
  | matrix k dims => .matrix k name dims
  | pointer s => .pointer (s.named name)
  | reference s => .reference (s.named name)

theorem name?_named (name : String) (s : Shape) : (s.named name).name? = some name := by
  induction s with
  | pointer s ih | reference s ih => exact ih
  | _ => rfl

end Shape

end KernelForge

import KernelForge.Kind
/-!
# Formal-parameter slots

A function definition takes its parameters from a fixed catalogue of slots: eight for every kind and
form. The label of a slot follows from the slot alone, so that two definitions which use one slot
agree on the parameter's name.
-/
namespace KernelForge

inductive SlotForm
  | scalar
  | array
  | matrix
  deriving DecidableEq

namespace SlotForm

def all : List SlotForm := [scalar, array, matrix]

def letter : SlotForm → String
  | scalar => "s"
  | array => "a"
  | matrix => "m"

def brackets : SlotForm → String
  | scalar => ""
  | array => " []"
  | matrix => " [][]"

end SlotForm

structure Slot where
  kind : Kind
  form : SlotForm
  ordinal : Fin 8
  deriving DecidableEq

namespace Slot

/-- There are no slots past the eighth of a kind and form. -/
def ofOrdinal? (kind : Kind) (form : SlotForm) (ordinal : Nat) : Option Slot :=
  if h : ordinal < 8 then some ⟨kind, form, ordinal, h⟩ else none

/-- The identifier of the parameter, such as `a_u32_1`. -/
def label (s : Slot) : String :=
  s.form.letter ++ "_" ++ s.kind.name ++ "_" ++ toString s.ordinal.val

/-- The formal parameter, such as `uint32_t a_u32_1 []`. -/
def parameter (s : Slot) : String :=
  s.kind.keyword ++ " " ++ s.label ++ s.form.brackets

/-- Every slot, ordered by kind, then form, then ordinal. -/
def catalogue : List Slot :=
  Kind.all.flatMap fun kind =>
    SlotForm.all.flatMap fun form =>
      (List.finRange 8).map fun ordinal => ⟨kind, form, ordinal⟩

/-- The place of a slot in the catalogue. -/
def position (s : Slot) : Nat := catalogue.idxOf s

end Slot

end KernelForge

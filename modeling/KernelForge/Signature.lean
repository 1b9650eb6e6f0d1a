import KernelForge.Kind
/-!
# Signatures

What is known of a callable: its name, the types of its parameters and the type of its result. Calls
are not checked against signatures; that is the work of the device compiler.
-/
namespace KernelForge

inductive ValueForm
  | scalar
  | array
  | matrix
  | pointer
  deriving DecidableEq

structure ValueType where
  kind : Kind
  form : ValueForm
  deriving DecidableEq

namespace ValueType

def scalar (kind : Kind) : ValueType := ⟨kind, .scalar⟩

def array (kind : Kind) : ValueType := ⟨kind, .array⟩

def matrix (kind : Kind) : ValueType := ⟨kind, .matrix⟩

def pointer (kind : Kind) : ValueType := ⟨kind, .pointer⟩

def text (t : ValueType) : String :=
  match t.form with
  | .scalar => t.kind.keyword
  | .array => t.kind.keyword ++ " []"
  | .matrix => t.kind.keyword ++ " [][]"
  | .pointer => t.kind.keyword ++ " *"

end ValueType

structure Signature where
  name : String
  params : List ValueType
  result : Option ValueType
  deriving DecidableEq

namespace Signature

/-- The entry point of every kernel. -/
def kernelMain : Signature := ⟨"kernel_main", [], none⟩

/-- A callable without a result returns `void`. -/
def resultText (s : Signature) : String :=
  match s.result with
  | none => "void"
  | some t => t.text

/-- The declaration, such as `void f(uint32_t, bool)`. -/
def text (s : Signature) : String :=
  s.resultText ++ " " ++ s.name ++ "(" ++ ", ".intercalate (s.params.map ValueType.text) ++ ")"

end Signature

end KernelForge

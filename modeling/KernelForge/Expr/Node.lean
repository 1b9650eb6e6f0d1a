import KernelForge.Signature
import KernelForge.Variable
/-!
# Expression nodes

One node of an expression. Its operands are named by ids of other nodes. Assignment and declaration
are expressions, so an initialised declaration is an assignment to a declaration.
-/
namespace KernelForge

/-- The number of a node in the order of allocation. -/
structure NodeId where
  index : Nat
  deriving DecidableEq

namespace NodeId

/-- The id that stands for no node. -/
def invalid : NodeId := ⟨4294967295⟩

def isValid (id : NodeId) : Bool := id != invalid

instance : Inhabited NodeId := ⟨invalid⟩

def text (id : NodeId) : String := "#" ++ toString id.index

end NodeId

/-- A run of ids in the list storage of an arena. -/
structure ArgRange where
  start : Nat
  length : Nat
  deriving DecidableEq

namespace ArgRange

def empty : ArgRange := ⟨0, 0⟩

def isEmpty (r : ArgRange) : Bool := r.length == 0

end ArgRange

inductive BinaryOp
  | add
  | sub
  | mul
  | div
  | mod
  | lt
  | le
  | gt
  | ge
  | eq
  | ne
  | and
  | or
  | bitAnd
  | bitOr
  | bitXor
  deriving DecidableEq

def BinaryOp.symbol : BinaryOp → String
  | add => "+"
  | sub => "-"
  | mul => "*"
  | div => "/"
  | mod => "%"
  | lt => "<"
  | le => "<="
  | gt => ">"
  | ge => ">="
  | eq => "=="
  | ne => "!="
  | and => "&&"
  | or => "||"
  | bitAnd => "&"
  | bitOr => "|"
  | bitXor => "^"

/-- `paren` puts its operand into parentheses and leaves its value. -/
inductive UnaryOp
  | neg
  | not
  | paren
  deriving DecidableEq

inductive Node
  | leaf (content : Variable)
  /-- Declares the variable that the target holds. -/
  | declare (target : NodeId)
  | assign (target value : NodeId)
  | index (base index : NodeId)
  | binary (op : BinaryOp) (left right : NodeId)
  | unary (op : UnaryOp) (operand : NodeId)
  | call (callee : Signature) (args : ArgRange)
  deriving DecidableEq

namespace Node

/-- The operands that the node itself names. The arguments of a call are kept in the arena. -/
def children : Node → List NodeId
  | leaf _ | call _ _ => []
  | declare a | unary _ a => [a]
  | assign a b | index a b | binary _ a b => [a, b]

def content? : Node → Option Variable
  | leaf v => some v
  | _ => none

end Node

end KernelForge

import KernelForge.Expr.Node
/-!
# Arenas

An arena owns the expression nodes of one kernel under construction. Nodes are appended and numbered
from zero, so whatever builds an expression bottom-up names smaller ids only. The argument lists of
calls lie one behind the other in a storage of their own.
-/
namespace KernelForge

/-- An argument list that a range cannot describe: it has more than 65535 ids. -/
structure TooManyArguments where
  count : Nat
  deriving DecidableEq

def TooManyArguments.message (e : TooManyArguments) : String :=
  "argument list too long: " ++ toString e.count ++ " entries"

structure Arena where
  nodes : Array Node
  arguments : Array NodeId

namespace Arena

def empty : Arena := ⟨#[], #[]⟩

def size (a : Arena) : Nat := a.nodes.size

def get? (a : Arena) (id : NodeId) : Option Node := a.nodes[id.index]?

/-- Appends a node. Its id is the number of the nodes before it. -/
def alloc (a : Arena) (node : Node) : NodeId × Arena :=
  (⟨a.nodes.size⟩, { a with nodes := a.nodes.push node })

/-- Puts another node in the place of an existing one. -/
def overwrite (a : Arena) (id : NodeId) (node : Node) : Arena :=
  { a with nodes := a.nodes.setIfInBounds id.index node }

/-- The longest argument list that a range can describe. -/
def maxArguments : Nat := 65535

/-- Appends a list of ids to the list storage. A list that is too long is refused only after its ids
were appended. -/
def storeList (a : Arena) (ids : List NodeId) : Except TooManyArguments ArgRange × Arena :=
  let start := a.arguments.size
  let count := ids.length
  let result :=
    if count = 0 then .ok .empty
    else if count ≤ maxArguments then .ok ⟨start, count⟩
    else .error ⟨count⟩
  (result, { a with arguments := a.arguments ++ ids })

/-- The ids of a range, if it lies inside the list storage. -/
def list? (a : Arena) (r : ArgRange) : Option (List NodeId) :=
  if r.start + r.length ≤ a.arguments.size then
    some (a.arguments.extract r.start (r.start + r.length)).toList
  else none

/-- The variable that a node holds, if it is a leaf. -/
def content? (a : Arena) (id : NodeId) : Option Variable := (a.get? id).bind Node.content?

/-- All operands of a node: the children that it names and the arguments of a call. -/
def operands (a : Arena) : Node → List NodeId
  | .call _ args => (a.list? args).getD []
  | node => node.children

/-! ## What an operation leaves in place -/

@[simp] theorem size_alloc (a : Arena) (node : Node) : (a.alloc node).2.size = a.size + 1 := by
  simp [alloc, size]

@[simp] theorem size_overwrite (a : Arena) (id : NodeId) (node : Node) :
    (a.overwrite id node).size = a.size := by
  simp [overwrite, size]

theorem get?_alloc (a : Arena) (node : Node) (id : NodeId) :
    (a.alloc node).2.get? id = if id.index = a.size then some node else a.get? id :=
  Array.getElem?_push

theorem get?_overwrite (a : Arena) (id other : NodeId) (node : Node) :
    (a.overwrite id node).get? other =
      if id.index = other.index then (if id.index < a.size then some node else none)
      else a.get? other :=
  Array.getElem?_setIfInBounds

@[simp] theorem list?_alloc (a : Arena) (node : Node) (r : ArgRange) :
    (a.alloc node).2.list? r = a.list? r := rfl

@[simp] theorem list?_overwrite (a : Arena) (id : NodeId) (node : Node) (r : ArgRange) :
    (a.overwrite id node).list? r = a.list? r := rfl

@[simp] theorem get?_storeList (a : Arena) (ids : List NodeId) (id : NodeId) :
    (a.storeList ids).2.get? id = a.get? id := rfl

end Arena

end KernelForge

import KernelForge.Expr.Arena
import KernelForge.Table
/-!
# Contexts

A context is the workshop of one kernel: an arena, and a table that gives each declared name the
node of its variable. Names are interned: once a name is in the table it keeps its node, whatever
later requests or updates do.
-/
namespace KernelForge

/-- A misuse of the symbol table. -/
inductive SymbolError
  /-- The name already stands for storage of another shape or kind. -/
  | shapeMismatch (name : String) (existing requested : Variable)
  /-- The node is not a named variable, or would cease to be one. -/
  | notAVariable (id : NodeId)
  /-- The node belongs to another context. -/
  | foreignHandle (id : NodeId)
  deriving DecidableEq

def SymbolError.message : SymbolError → String
  | shapeMismatch name existing requested =>
    "`" ++ name ++ "` is already declared as " ++ existing.describe ++ ", cannot redeclare as " ++
      requested.describe
  | notAVariable id => "expression " ++ id.text ++ " is not a variable"
  | foreignHandle id => "expression " ++ id.text ++ " belongs to another kernel context"

structure Context where
  /-- Where the kernel was written. -/
  provenance : String
  arena : Arena
  symbols : Table String NodeId

namespace Context

def new (provenance : String) : Context := ⟨provenance, .empty, .empty⟩

def alloc (c : Context) (node : Node) : NodeId × Context :=
  let (id, arena) := c.arena.alloc node
  (id, { c with arena })

def lookup (c : Context) (name : String) : Option NodeId := c.symbols.get? name

/-- The declared names in ascending order. -/
def names (c : Context) : List String := c.symbols.keys.mergeSort fun a b => decide (a ≤ b)

/-- Allocates a variable and enters it under a name. -/
def enter (c : Context) (name : String) (v : Variable) : NodeId × Context :=
  let (id, c) := c.alloc (.leaf v)
  (id, { c with symbols := c.symbols.insert name id })

/-- The node of a name, which is created with the given shape if the name is new. A name that exists
keeps its shape. -/
def intern (c : Context) (name : String) (shape : Shape) : NodeId × Context :=
  match c.lookup name with
  | some id => (id, c)
  | none => c.enter name (shape.named name)

/-- Like `intern`, but an existing name has to have the requested shape and kind. -/
def tryIntern (c : Context) (name : String) (shape : Shape) :
    Except SymbolError NodeId × Context :=
  let requested := shape.named name
  match c.lookup name with
  | none =>
    let (id, c) := c.enter name requested
    (.ok id, c)
  | some id =>
    match c.arena.content? id with
    | none => (.error (.notAVariable id), c)
    | some existing =>
      if existing.agrees requested then (.ok id, c)
      else (.error (.shapeMismatch name existing requested), c)

/-- The node of a variable that comes from another context. A named variable is found by its name,
and entered if the name is new; an unnamed one is always a new node. -/
def receive (c : Context) (v : Variable) : NodeId × Context :=
  match v.name? with
  | none => c.alloc (.leaf v)
  | some name =>
    match c.lookup name with
    | some id => (id, c)
    | none => c.enter name v

/-- Changes the variable of a node. Neither the old nor the new variable may lack a name. The table
keeps the name under which the node was entered. -/
def modifyVariable (c : Context) (id : NodeId) (f : Variable → Variable) :
    Except SymbolError Context :=
  match c.arena.content? id with
  | none => .error (.notAVariable id)
  | some v =>
    if v.name?.isNone || (f v).name?.isNone then .error (.notAVariable id)
    else .ok { c with arena := c.arena.overwrite id (.leaf (f v)) }

end Context

end KernelForge

import KernelForge.Session.Basic
import KernelForge.Intrinsics.DataMovement
/-!
# Building expressions

Operators take in their right operand, if it is not a node of the same context, and then append one
node to the context of their left operand.
-/
namespace KernelForge.Session

/-- A constant. Constants are never shared. -/
def literal (c : Nat) (value : Literal) : Build Handle := alloc c (.leaf (.literal value))

/-- A formal parameter inside a function body. -/
def slot (c : Nat) (s : Slot) : Build Handle := alloc c (.leaf (.slot s))

def scalar (c : Nat) (name : String) (kind : Kind) : Build Handle := intern c name (.scalar kind)

def array (c : Nat) (name : String) (kind : Kind) (length : Nat) : Build Handle :=
  intern c name (.array kind length)

def matrix (c : Nat) (name : String) (kind : Kind) (dims : List Nat) : Build Handle :=
  intern c name (.matrix kind dims)

def pointer (c : Nat) (name : String) (kind : Kind) : Build Handle :=
  intern c name (.pointer (.scalar kind))

def reference (c : Nat) (name : String) (kind : Kind) : Build Handle :=
  intern c name (.reference (.scalar kind))

def hardware (c : Nat) (constant : Intrinsics.HardwareConstant) : Build Handle :=
  scalar c constant.name .u32

/-- A call. The arguments are taken in from left to right. If there are too many of them, no node is
made, but what was taken in stays. -/
def call (c : Nat) (callee : Signature) (args : List Operand) :
    Build (Except TooManyArguments Handle) := do
  let ids ← args.mapM (attach c)
  let range ← onContext c fun ctx =>
    let (range, arena) := ctx.arena.storeList ids
    (range, { ctx with arena })
  match range with
  | .error e => return .error e
  | .ok range => return .ok (← alloc c (.call callee range))

/-- A call of arguments that are known to be few enough. -/
def callShort (c : Nat) (callee : Signature) (args : List Operand)
    (_ : args.length ≤ Arena.maxArguments := by simp [Arena.maxArguments]) : Build Handle := do
  let ids ← args.mapM (attach c)
  let range ← onContext c fun ctx =>
    let (range, arena) := ctx.arena.appendList ids
    (range, { ctx with arena })
  alloc c (.call callee range)

def declare (a : Handle) : Build Handle := alloc a.context (.declare a.node)

def unary (op : UnaryOp) (a : Handle) : Build Handle := alloc a.context (.unary op a.node)

def binary (op : BinaryOp) (a : Handle) (b : Operand) : Build Handle := do
  let right ← attach a.context b
  alloc a.context (.binary op a.node right)

/-- An operator whose left operand is a constant. -/
def binaryLiteral (op : BinaryOp) (a : Literal) (b : Handle) : Build Handle := do
  let left ← literal b.context a
  alloc b.context (.binary op left.node b.node)

def assign (a : Handle) (b : Operand) : Build Handle := do
  let value ← attach a.context b
  alloc a.context (.assign a.node value)

def index (a : Handle) (b : Operand) : Build Handle := do
  let i ← attach a.context b
  alloc a.context (.index a.node i)

end KernelForge.Session

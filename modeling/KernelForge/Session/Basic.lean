import KernelForge.Session.Copying
import KernelForge.Session.Role
/-!
# Sessions

A session holds the contexts in which kernels of one role are built. A handle names a node of one
of the contexts. Whatever a context takes in, be it an operand or a statement, becomes its own: what
was built in another context is copied.
-/
namespace KernelForge

structure Session where
  role : Role
  contexts : Array Context

/-- A node of a context of the session. -/
structure Handle where
  context : Nat
  node : NodeId
  deriving DecidableEq

/-- What can stand as an operand: a node, or a constant that becomes one when it is taken in. -/
inductive Operand
  | handle (h : Handle)
  | literal (value : Literal)
  deriving DecidableEq

/-- A statement and the context of its expressions. A statement without expressions has none. -/
structure Statement where
  origin : Option Nat
  stmt : Stmt

/-- A step of a session. -/
abbrev Build := StateM Session

namespace Session

/-- A session with an empty context for each provenance. -/
def new (role : Role) (provenances : List String) : Session :=
  ⟨role, (provenances.map Context.new).toArray⟩

def context (s : Session) (c : Nat) : Context := (s.contexts[c]?).getD (.new "")

/-- Runs an operation on one context. The context is taken out of the session meanwhile, so that the
operation owns it. -/
def onContext {α : Type} (c : Nat) (f : Context → α × Context) : Build α := fun ⟨role, contexts⟩ =>
  let context := (contexts[c]?).getD (.new "")
  let contexts := contexts.setIfInBounds c (.new "")
  let (a, context) := f context
  (a, ⟨role, contexts.setIfInBounds c context⟩)

/-- Appends a node to a context. -/
def alloc (c : Nat) (node : Node) : Build Handle := do
  return ⟨c, ← onContext c fun ctx => ctx.alloc node⟩

/-- Takes an operand into a context. -/
def attach (c : Nat) : Operand → Build NodeId
  | .literal v => onContext c fun ctx => ctx.alloc (.leaf (.literal v))
  | .handle h =>
    if h.context = c then return h.node
    else do
      let source := ((← get).context h.context).arena
      onContext c fun ctx => ctx.copyExpr source h.node

/-- Takes a statement into a context. -/
def adopt (c : Nat) (s : Statement) : Build Stmt :=
  match s.origin with
  | none => return s.stmt
  | some origin =>
    if origin = c then return s.stmt
    else do
      let source := ((← get).context origin).arena
      onContext c fun ctx => ctx.copyStmt source s.stmt

/-- Takes the statements of a body into a context, one after the other. -/
def absorb (c : Nat) (body : List Statement) : Build (List Stmt) := body.mapM (adopt c)

/-! ## Symbols -/

def intern (c : Nat) (name : String) (shape : Shape) : Build Handle := do
  return ⟨c, ← onContext c fun ctx => ctx.intern name shape⟩

def tryIntern (c : Nat) (name : String) (shape : Shape) : Build (Except SymbolError Handle) := do
  return (← onContext c fun ctx => ctx.tryIntern name shape).map (Handle.mk c)

def lookup (s : Session) (c : Nat) (name : String) : Option Handle :=
  ((s.context c).lookup name).map (Handle.mk c)

/-- Changes the variable behind a handle. Only the handle's own context may do so. -/
def modifyVariable (c : Nat) (h : Handle) (f : Variable → Variable) :
    Build (Except SymbolError Unit) :=
  if h.context = c then
    onContext c fun ctx =>
      match ctx.modifyVariable h.node f with
      | .ok changed => (.ok (), changed)
      | .error e => (.error e, ctx)
  else return .error (.foreignHandle h.node)

/-- The variable behind a handle, if it is a leaf. -/
def content? (s : Session) (h : Handle) : Option Variable :=
  (s.context h.context).arena.content? h.node

end Session

end KernelForge

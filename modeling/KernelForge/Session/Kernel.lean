import KernelForge.Render.Statement
import KernelForge.Session.Basic
import KernelForge.Text.Quoted
/-!
# Kernels

A kernel is source text for one role, with the place where it was written and the misuses found in
it. It is rendered once, when it is made. The module also describes contexts, handles and kernels in
one line each.
-/
namespace KernelForge

structure Kernel where
  role : Role
  provenance : String
  source : String
  diagnostics : List Diagnostic
  deriving DecidableEq

namespace Session

/-- Takes statements into a context and renders them there. What was taken in stays, also if the
rendering fails. -/
def kernel (c : Nat) (body : List Statement) (options : RenderOptions) :
    Build (Except RenderError Kernel) := do
  let stmts ← absorb c body
  let s ← get
  let ctx := s.context c
  return (ctx.arena.render stmts options).map fun r =>
    ⟨s.role, ctx.provenance, r.code, r.diagnostics⟩

/-- The text of an expression on its own, within the default depth limit. -/
def render (s : Session) (h : Handle) : Except RenderError String :=
  (s.context h.context).arena.renderExpr h.node ({} : RenderOptions).maxDepth

end Session

/-! ## One-line descriptions -/

/-- A name and fields in braces. -/
def record (name : String) (fields : List (String × String)) : String :=
  name ++ " \x7b " ++ ", ".intercalate (fields.map fun (k, v) => k ++ ": " ++ v) ++ " \x7d"

def NodeId.describe (id : NodeId) : String :=
  if id.isValid then "ExprId(" ++ toString id.index ++ ")" else "ExprId::INVALID"

def Diagnostic.describe : Diagnostic → String
  | emptyBody c => record "EmptyBody" [("construct", Text.quoted c.name)]
  | emptyIf => "EmptyIf"
  | emptySwitch => "EmptySwitch"
  | misplacedElse position => record "MisplacedElse" [("position", toString position)]
  | multipleElse count => record "MultipleElse" [("count", toString count)]

def Session.describeContext (s : Session) (c : Nat) : String :=
  let ctx := s.context c
  record "KernelContext" [("role", Text.quoted s.role.name),
    ("provenance", Text.quoted ctx.provenance), ("symbols", toString ctx.symbols.size),
    ("nodes", toString ctx.arena.size)]

/-- A handle whose expression has no rendering is described without a text. -/
def Session.describeHandle (s : Session) (h : Handle) : String :=
  let text := match s.render h with
    | .ok t => [("text", Text.quoted t)]
    | .error _ => []
  record "Expr" ([("role", Text.quoted s.role.name), ("id", h.node.describe)] ++ text)

def Kernel.describe (k : Kernel) : String :=
  record "Kernel" [("role", Text.quoted k.role.name), ("provenance", Text.quoted k.provenance),
    ("bytes", toString k.source.utf8ByteSize),
    ("diagnostics", "[" ++ ", ".intercalate (k.diagnostics.map Diagnostic.describe) ++ "]")]

end KernelForge

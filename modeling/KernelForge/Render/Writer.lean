import KernelForge.Render.Error
/-!
# The writer

Rendering appends lines to a writer. The writer knows the current indentation, counts the open
blocks against a limit and collects diagnostics. An action on the writer may fail; what it wrote
before stays written, and a block that fails still gives back its indentation and its depth.
-/
namespace KernelForge

structure RenderOptions where
  /-- Spaces for each level of indentation. -/
  indentWidth : Nat := 4
  /-- The deepest nesting of blocks, and of operands in an expression, that is rendered. -/
  maxDepth : Nat := 4096
  deriving DecidableEq

namespace RenderOptions

/-- A width of zero is raised to one, so that inner levels stay further in than outer ones. -/
def setIndentWidth (o : RenderOptions) (width : Nat) : RenderOptions :=
  { o with indentWidth := if width = 0 then 1 else width }

def setMaxDepth (o : RenderOptions) (depth : Nat) : RenderOptions := { o with maxDepth := depth }

end RenderOptions

structure Writer where
  options : RenderOptions
  indent : Nat
  depth : Nat
  output : String
  diagnostics : List Diagnostic

namespace Writer

def new (options : RenderOptions) : Writer := ⟨options, 0, 0, "", []⟩

def spaces (n : Nat) : String := String.ofList (List.replicate n ' ')

/-- Writes one line at the current indentation. The margin is the product of level and width,
which is what a machine writes as long as the product is below `2 ^ 64`. -/
def line (w : Writer) (text : String) : Writer :=
  let margin := spaces (w.indent * w.options.indentWidth)
  { w with output := w.output ++ margin ++ text ++ "\n" }

def moveIn (w : Writer) : Writer := { w with indent := w.indent + 1 }

/-- At the outermost level there is nowhere to move out to. -/
def moveOut (w : Writer) : Writer := { w with indent := w.indent - 1 }

/-- Opens a block: one level further in and one block deeper. The block is refused when as many
blocks are open as the limit allows. -/
def enter (w : Writer) : Except RenderError Writer :=
  if w.options.maxDepth ≤ w.depth then .error (.nestingTooDeep w.options.maxDepth)
  else .ok { w with depth := w.depth + 1, indent := w.indent + 1 }

/-- Closes the innermost block. -/
def leave (w : Writer) : Writer := { w with depth := w.depth - 1, indent := w.indent - 1 }

def report (w : Writer) (d : Diagnostic) : Writer :=
  { w with diagnostics := w.diagnostics ++ [d] }

/-- Hands out what was written and starts afresh. -/
def drainOutput (w : Writer) : String × Writer := (w.output, { w with output := "" })

def drainDiagnostics (w : Writer) : List Diagnostic × Writer :=
  (w.diagnostics, { w with diagnostics := [] })

/-- A block can be opened exactly when fewer blocks are open than the limit. -/
theorem enter_eq_error_iff {w : Writer} {e : RenderError} :
    w.enter = .error e ↔ w.options.maxDepth ≤ w.depth ∧ e = .nestingTooDeep w.options.maxDepth := by
  by_cases h : w.options.maxDepth ≤ w.depth <;> simp [enter, h, eq_comm]

/-- Closing a block undoes its opening. -/
theorem leave_of_enter {w inner : Writer} (h : w.enter = .ok inner) : inner.leave = w := by
  unfold enter at h
  split at h
  · simp at h
  · obtain rfl := Except.ok.inj h
    rfl

end Writer

/-- An action on the writer that may fail. A failure keeps what was done before it. -/
abbrev Emit := ExceptT RenderError (StateM Writer)

namespace Emit

def line (text : String) : Emit Unit := modify fun w => w.line text

def report (d : Diagnostic) : Emit Unit := modify fun w => w.report d

def reportAll (ds : List Diagnostic) : Emit Unit := ds.forM report

/-- Runs `body` inside a block, which is closed whether or not `body` fails. A refused block changes
nothing. -/
def nested (body : Emit Unit) : Emit Unit := fun w =>
  match w.enter with
  | .error e => (.error e, w)
  | .ok inner =>
    let (result, after) := body inner
    (result, after.leave)

end Emit

end KernelForge

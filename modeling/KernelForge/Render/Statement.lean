import KernelForge.Render.Expression
import KernelForge.Render.Writer
import KernelForge.Text.Lines
/-!
# Statement text

Writes statement trees. A simple statement is one line that ends in a semicolon. A compound
statement opens a brace on its header line and closes it at its own level, with the body one level
further in. Comments and includes take no semicolon.
-/
namespace KernelForge

/-- The `else` arms of a chain, given the condition of each arm, that other arms follow. The first
arm does not count: without a condition it is no `else`. -/
def misplacedElse (conds : List (Option NodeId)) : List Diagnostic :=
  (conds.zipIdx.filter fun (c, i) => c.isNone && i != 0 && i + 1 != conds.length).map
    fun (_, i) => .misplacedElse i

/-- More than one arm without a condition. -/
def multipleElse (conds : List (Option NodeId)) : List Diagnostic :=
  let count := conds.countP Option.isNone
  if 1 < count then [.multipleElse count] else []

/-- What is wrong with the arms without a condition: such an arm is unique and comes last. -/
def elseDiagnostics (conds : List (Option NodeId)) : List Diagnostic :=
  misplacedElse conds ++ multipleElse conds

/-- The lines of a comment. An empty comment and an empty line are the bare slashes. -/
def commentLines (text : String) : List String :=
  if text.isEmpty then ["//"]
  else (Text.lines text.toList).map fun l => if l.isEmpty then "//" else "// " ++ String.ofList l

/-- The header of a function definition. The parameters are the slots of the definition, so that its
body can name them by their labels. -/
def functionHeader (s : Signature) (params : List Slot) : String :=
  let arguments :=
    if params.isEmpty then "()" else "( " ++ ", ".intercalate (params.map Slot.parameter) ++ " )"
  s.resultText ++ " " ++ s.name ++ arguments ++ " \x7b"

namespace Arena

/-- The text of an expression in a statement, which has the depth limit of the writer. -/
def exprText (a : Arena) (id : NodeId) : Emit String := do
  let w ← get
  a.renderExpr id w.options.maxDepth

/-- The header line of an arm. Only an arm behind the first one may lack a condition. -/
def branchHeader (a : Arena) (first : Bool) (cond : Option NodeId) : Emit String :=
  match first, cond with
  | true, some c => return "if ( " ++ (← a.exprText c) ++ " ) \x7b"
  | true, none => throw .missingCondition
  | false, some c => return "\x7d else if ( " ++ (← a.exprText c) ++ " ) \x7b"
  | false, none => return "\x7d else \x7b"

/-- Writes a body one level further in than its header. -/
def writeBlock (construct : Construct) (body : List Stmt) (emit : Emit Unit) : Emit Unit := do
  if body.isEmpty then Emit.report (.emptyBody construct)
  Emit.nested emit

mutual

def writeStmt (a : Arena) : Stmt → Emit Unit
  | .expr id => do
    Emit.line ((← a.exprText id) ++ ";")
  | .comment text => (commentLines text).forM Emit.line
  | .includeFile path => Emit.line ("#include " ++ path.text)
  | .forLoop init cond step body => do
    let i ← a.exprText init
    let c ← a.exprText cond
    let s ← a.exprText step
    Emit.line ("for ( " ++ i ++ " ; " ++ c ++ " ; " ++ s ++ " ) \x7b")
    writeBlock .forLoop body (a.writeAll body)
    Emit.line "\x7d"
  | .whileLoop cond body => do
    Emit.line ("while ( " ++ (← a.exprText cond) ++ " ) \x7b")
    writeBlock .whileLoop body (a.writeAll body)
    Emit.line "\x7d"
  | .ifChain branches =>
    if branches.isEmpty then Emit.report .emptyIf
    else do
      Emit.reportAll (elseDiagnostics (branches.map Branch.cond))
      a.writeBranches true branches
      Emit.line "\x7d"
  | .switch subject cases default => do
    if cases.isEmpty && default.isNone then Emit.report .emptySwitch
    Emit.line ("switch ( " ++ (← a.exprText subject) ++ " ) \x7b")
    Emit.nested do
      a.writeCases cases
      match default with
      | none => pure ()
      | some body =>
        Emit.line "default: \x7b"
        writeBlock .defaultArm body (a.writeAll body)
        Emit.line "\x7d break;"
    Emit.line "\x7d"
  | .function signature params body => do
    Emit.line (functionHeader signature params)
    writeBlock .function body (a.writeAll body)
    Emit.line "\x7d"

def writeAll (a : Arena) : List Stmt → Emit Unit
  | [] => pure ()
  | s :: rest => do
    a.writeStmt s
    a.writeAll rest

def writeBranches (a : Arena) : Bool → List Branch → Emit Unit
  | _, [] => pure ()
  | first, ⟨cond, body⟩ :: rest => do
    Emit.line (← a.branchHeader first cond)
    writeBlock .ifChain body (a.writeAll body)
    a.writeBranches false rest

def writeCases (a : Arena) : List SwitchCase → Emit Unit
  | [] => pure ()
  | ⟨value, body⟩ :: rest => do
    Emit.line ("case " ++ (← a.exprText value) ++ " : \x7b")
    writeBlock .caseArm body (a.writeAll body)
    Emit.line "\x7d break;"
    a.writeCases rest

end

end Arena

/-- The text of a statement list and the misuses found on the way. -/
structure Rendered where
  code : String
  diagnostics : List Diagnostic
  deriving DecidableEq

/-- Renders statements one behind the other. A failure anywhere gives no text at all. -/
def Arena.render (a : Arena) (stmts : List Stmt) (options : RenderOptions) :
    Except RenderError Rendered :=
  match a.writeAll stmts (Writer.new options) with
  | (.ok (), w) => .ok ⟨w.output, w.diagnostics⟩
  | (.error e, _) => .error e

end KernelForge

import KernelForge.Render.Statement
/-!
# Writer programs

A program is a list of steps on a writer, with blocks inside blocks. Running it gives the answers of
its steps and the writer after them. A statement or a block that fails answers with its error, and
the program goes on, unless the program passes the error on: then it ends the block that it stands
in, as `fail` does.
-/
namespace KernelForge

inductive WriterStep
  | line (text : String)
  | moveIn
  | moveOut
  | nested (body : List WriterStep)
  | fail
  | emit (stmt : Stmt)
  | report (diagnostic : Diagnostic)
  | drainOutput
  | drainDiagnostics
  | options
  /-- A step whose failure ends the block that it stands in. -/
  | passOn (step : WriterStep)

inductive WriterAnswer
  /-- The level of indentation after the step. -/
  | level (n : Nat)
  | emitted (result : Except RenderError Unit)
  | reported
  | output (text : String)
  | diagnostics (ds : List Diagnostic)
  | options (o : RenderOptions)
  /-- The outcome of a block and the level of indentation after it. -/
  | block (result : Except RenderError Unit) (level : Nat)

/-- The answers so far, latest first, beside the writer. -/
structure WriterRun where
  writer : Writer
  answers : List WriterAnswer

namespace WriterRun

def answer (r : WriterRun) (a : WriterAnswer) : WriterRun := { r with answers := a :: r.answers }

/-- Replaces the writer and answers with its level of indentation. -/
def move (r : WriterRun) (w : Writer) : WriterRun := ⟨w, .level w.indent :: r.answers⟩

end WriterRun

/-- The steps that answer with their error and let the program go on. -/
def WriterStep.holdsBack : WriterStep → Bool
  | .nested _ | .emit _ => true
  | _ => false

mutual

/-- Runs one step. The outcome is that of the step itself, also if the program goes on after an
error. -/
def WriterStep.run (a : Arena) : WriterStep → WriterRun → Except RenderError Unit × WriterRun
  | .line text, r => (.ok (), r.move (r.writer.line text))
  | .moveIn, r => (.ok (), r.move r.writer.moveIn)
  | .moveOut, r => (.ok (), r.move r.writer.moveOut)
  | .nested body, r =>
    match r.writer.enter with
    | .error e => (.error e, r.answer (.block (.error e) r.writer.indent))
    | .ok inner =>
      let (result, after) := WriterStep.runAll a body { r with writer := inner }
      let w := after.writer.leave
      (result, ⟨w, .block result w.indent :: after.answers⟩)
  | .fail, r => (.error .missingCondition, r)
  | .emit stmt, r =>
    let (result, w) := a.writeStmt stmt r.writer
    (result, ⟨w, .emitted result :: r.answers⟩)
  | .report d, r => (.ok (), ⟨r.writer.report d, .reported :: r.answers⟩)
  | .drainOutput, r =>
    let (text, w) := r.writer.drainOutput
    (.ok (), ⟨w, .output text :: r.answers⟩)
  | .drainDiagnostics, r =>
    let (ds, w) := r.writer.drainDiagnostics
    (.ok (), ⟨w, .diagnostics ds :: r.answers⟩)
  | .options, r => (.ok (), r.answer (.options r.writer.options))
  | .passOn step, r => step.run a r

/-- Runs steps up to the first error that is not held back. -/
def WriterStep.runAll (a : Arena) :
    List WriterStep → WriterRun → Except RenderError Unit × WriterRun
  | [], r => (.ok (), r)
  | s :: rest, r =>
    match s.run a r with
    | (.ok (), r) => WriterStep.runAll a rest r
    | (.error e, r) => if s.holdsBack then WriterStep.runAll a rest r else (.error e, r)

end

end KernelForge

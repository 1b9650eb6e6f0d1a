import KernelForge.Proofs.Render.Layout
import KernelForge.Render.Program

/-!
# Acts on a writer

What code does to a writer, act by act: calls that cannot fail, failures, blocks, and code whose
failure is not passed on. Acts are run like the code, and the run also tells what happened to the
writer, event by event, so that each moment of a run is a beginning of its events. Statements and
writer programs are acts.
-/
namespace KernelForge

/-- A call on a writer that cannot fail. -/
inductive WriterCall
  | line (text : String)
  | moveIn
  | moveOut
  | report (d : Diagnostic)
  | drainOutput
  | drainDiagnostics
  deriving DecidableEq

def WriterCall.apply : WriterCall → Writer → Writer
  | line text, w => w.line text
  | moveIn, w => w.moveIn
  | moveOut, w => w.moveOut
  | report d, w => w.report d
  | drainOutput, w => w.drainOutput.2
  | drainDiagnostics, w => w.drainDiagnostics.2

/-- What happens to a writer. A block is entered and left, or it is refused. -/
inductive WriterEvent
  | call (c : WriterCall)
  | enter
  | refused
  | leave
  deriving DecidableEq

def WriterEvent.apply : WriterEvent → Writer → Writer
  | call c, w => c.apply w
  | enter, w => { w with depth := w.depth + 1, indent := w.indent + 1 }
  | refused, w => w
  | leave, w => w.leave

/-- The writer after some events. -/
def Writer.replay (w : Writer) (log : List WriterEvent) : Writer :=
  log.foldl (fun w e => e.apply w) w

namespace Writer

variable (w : Writer)

@[simp] theorem replay_nil : w.replay [] = w := rfl

@[simp] theorem replay_cons (e : WriterEvent) (log : List WriterEvent) :
    w.replay (e :: log) = (e.apply w).replay log := rfl

@[simp] theorem replay_append (log more : List WriterEvent) :
    w.replay (log ++ more) = (w.replay log).replay more :=
  List.foldl_append

theorem options_apply (e : WriterEvent) : (e.apply w).options = w.options := by
  rcases e with (_ | _) | _ | _ | _ <;> rfl

@[simp] theorem options_replay (log : List WriterEvent) : (w.replay log).options = w.options := by
  induction log generalizing w with
  | nil => rfl
  | cons e rest ih => rw [replay_cons, ih, options_apply]

theorem enter_of_lt (h : w.depth < w.options.maxDepth) :
    w.enter = .ok (WriterEvent.enter.apply w) := by
  rw [enter, if_neg (Nat.not_le.mpr h)]
  rfl

theorem enter_of_le (h : w.options.maxDepth ≤ w.depth) :
    w.enter = .error (.nestingTooDeep w.options.maxDepth) :=
  if_pos h

end Writer

/-! ## Running acts -/

inductive WriterAct
  | call (c : WriterCall)
  | fail (e : RenderError)
  /-- A block, which passes on the failure of its body. -/
  | nested (body : List WriterAct)
  /-- Code whose failure is not passed on. -/
  | attempt (body : List WriterAct)

/-- How code ended, what happened on the way, and the writer afterwards. -/
structure WriterPlay where
  result : Except RenderError Unit
  log : List WriterEvent
  writer : Writer

/-- Goes on with other code unless there was a failure. -/
def WriterPlay.andThen (p : WriterPlay) (next : Writer → WriterPlay) : WriterPlay :=
  match p.result with
  | .error _ => p
  | .ok () =>
    let q := next p.writer
    ⟨q.result, p.log ++ q.log, q.writer⟩

theorem WriterPlay.andThen_assoc (p : WriterPlay) (next more : Writer → WriterPlay) :
    (p.andThen next).andThen more = p.andThen fun w => (next w).andThen more := by
  obtain ⟨_ | _, log, w⟩ := p
  · rfl
  · simp only [WriterPlay.andThen]
    generalize next w = q
    obtain ⟨_ | _, log', w'⟩ := q
    · rfl
    · simp only [List.append_assoc]

namespace WriterAct

mutual

def run : WriterAct → Writer → WriterPlay
  | call c, w => ⟨.ok (), [.call c], c.apply w⟩
  | fail e, w => ⟨.error e, [], w⟩
  | nested body, w =>
    match w.enter with
    | .error e => ⟨.error e, [.refused], w⟩
    | .ok inner =>
      let p := runAll body inner
      ⟨p.result, .enter :: (p.log ++ [.leave]), p.writer.leave⟩
  | attempt body, w =>
    let p := runAll body w
    ⟨.ok (), p.log, p.writer⟩

def runAll : List WriterAct → Writer → WriterPlay
  | [], w => ⟨.ok (), [], w⟩
  | act :: rest, w => (act.run w).andThen fun w => runAll rest w

end

theorem run_nested_of_lt {body : List WriterAct} {w : Writer}
    (h : w.depth < w.options.maxDepth) :
    (nested body).run w =
      ⟨(runAll body (WriterEvent.enter.apply w)).result,
        .enter :: ((runAll body (WriterEvent.enter.apply w)).log ++ [.leave]),
        (runAll body (WriterEvent.enter.apply w)).writer.leave⟩ := by
  rw [run, w.enter_of_lt h]

theorem run_nested_of_le {body : List WriterAct} {w : Writer}
    (h : w.options.maxDepth ≤ w.depth) :
    (nested body).run w = ⟨.error (.nestingTooDeep w.options.maxDepth), [.refused], w⟩ := by
  rw [run, w.enter_of_le h]

theorem runAll_append (acts more : List WriterAct) (w : Writer) :
    runAll (acts ++ more) w = (runAll acts w).andThen fun w => runAll more w := by
  induction acts generalizing w with
  | nil => rfl
  | cons act rest ih => simp only [List.cons_append, runAll, ih, WriterPlay.andThen_assoc]

theorem runAll_singleton (act : WriterAct) (w : Writer) : runAll [act] w = act.run w := by
  rw [runAll]
  generalize act.run w = p
  obtain ⟨_ | _, log, w'⟩ := p
  · rfl
  · simp only [WriterPlay.andThen, runAll, List.append_nil]

end WriterAct

/-! ## The events of a run -/

/-- Each of the events happens where it may. -/
def Writer.Throughout (w : Writer) (may : WriterEvent → Writer → Prop) (log : List WriterEvent) :
    Prop :=
  ∀ before e after, log = before ++ e :: after → may e (w.replay before)

section

variable {w : Writer} {may : WriterEvent → Writer → Prop} {log more : List WriterEvent}

theorem Writer.throughout_nil : w.Throughout may [] := by
  intro before e after h
  simp at h

theorem Writer.throughout_cons {e : WriterEvent} :
    w.Throughout may (e :: log) ↔ may e w ∧ (e.apply w).Throughout may log := by
  constructor
  · intro h
    refine ⟨h [] e log rfl, fun before e' after heq => h (e :: before) e' after ?_⟩
    rw [heq, List.cons_append]
  · rintro ⟨hfirst, hrest⟩ (_ | ⟨e', before⟩) e'' after heq
    · obtain ⟨rfl, -⟩ := List.cons.inj heq
      exact hfirst
    · obtain ⟨rfl, htail⟩ := List.cons.inj heq
      exact hrest before e'' after htail

/-- Found out event by event. -/
instance Writer.decidableThroughout [∀ e w, Decidable (may e w)] :
    ∀ (w : Writer) (log : List WriterEvent), Decidable (w.Throughout may log)
  | _, [] => isTrue throughout_nil
  | w, e :: rest =>
    have := Writer.decidableThroughout (e.apply w) rest
    decidable_of_iff' _ throughout_cons

theorem Writer.throughout_append :
    w.Throughout may (log ++ more) ↔ w.Throughout may log ∧ (w.replay log).Throughout may more := by
  induction log generalizing w with
  | nil => simp [Writer.throughout_nil]
  | cons e rest ih =>
    rw [List.cons_append, Writer.throughout_cons, ih, Writer.throughout_cons, and_assoc]
    rfl

/-- Where an event may happen. A block is entered if there is room for it, and refused if not. -/
def WriterEvent.Allowed : WriterEvent → Writer → Prop
  | call _, _ => True
  | enter, w => w.depth < w.options.maxDepth
  | refused, w => w.options.maxDepth ≤ w.depth
  | leave, w => 0 < w.depth

/-- The events that a run tells lead to the writer that it leaves, each where it is allowed, and as
many blocks are open as before. -/
structure WriterPlay.Logged (p : WriterPlay) (w : Writer) : Prop where
  writer : p.writer = w.replay p.log
  allowed : w.Throughout WriterEvent.Allowed p.log
  depth : p.writer.depth = w.depth

theorem WriterPlay.Logged.options {p : WriterPlay} (h : p.Logged w) :
    p.writer.options = w.options := by
  rw [h.writer, Writer.options_replay]

theorem WriterPlay.Logged.andThen {p : WriterPlay} {next : Writer → WriterPlay} (h : p.Logged w)
    (hnext : (next p.writer).Logged p.writer) : (p.andThen next).Logged w := by
  obtain ⟨_ | _, log, w'⟩ := p
  · exact h
  · obtain ⟨hwriter, hallowed, hdepth⟩ := h
    obtain ⟨hwriter', hallowed', hdepth'⟩ := hnext
    dsimp only at hwriter hdepth hwriter' hallowed' hdepth'
    refine ⟨?_, Writer.throughout_append.mpr ⟨hallowed, hwriter ▸ hallowed'⟩, ?_⟩
    · simp only [WriterPlay.andThen, Writer.replay_append, ← hwriter, ← hwriter']
    · simp only [WriterPlay.andThen, hdepth', hdepth]

end

namespace WriterAct

mutual

theorem logged_run : ∀ (act : WriterAct) (w : Writer), (act.run w).Logged w
  | call c, w => by
    refine ⟨rfl, Writer.throughout_cons.mpr ⟨trivial, Writer.throughout_nil⟩, ?_⟩
    cases c <;> rfl
  | fail e, w => ⟨rfl, Writer.throughout_nil, rfl⟩
  | nested body, w => by
    by_cases hroom : w.depth < w.options.maxDepth
    · obtain ⟨hwriter, hallowed, hdepth⟩ := logged_runAll body (WriterEvent.enter.apply w)
      have hinner : (runAll body (WriterEvent.enter.apply w)).writer.depth = w.depth + 1 := hdepth
      rw [run_nested_of_lt hroom]
      refine ⟨?_, ?_, ?_⟩
      · rw [Writer.replay_cons, Writer.replay_append, ← hwriter]
        rfl
      · have hopen : 0 < (runAll body (WriterEvent.enter.apply w)).writer.depth := by
          rw [hinner]
          exact Nat.succ_pos _
        refine Writer.throughout_cons.mpr ⟨hroom, Writer.throughout_append.mpr ⟨hallowed, ?_⟩⟩
        rw [← hwriter]
        exact Writer.throughout_cons.mpr ⟨hopen, Writer.throughout_nil⟩
      · simp only [Writer.leave, hinner, Nat.add_sub_cancel]
    · have hfull := Nat.not_lt.mp hroom
      rw [run_nested_of_le hfull]
      exact ⟨rfl, Writer.throughout_cons.mpr ⟨hfull, Writer.throughout_nil⟩, rfl⟩
  | attempt body, w =>
    have h := logged_runAll body w
    ⟨h.writer, h.allowed, h.depth⟩

theorem logged_runAll : ∀ (acts : List WriterAct) (w : Writer), (runAll acts w).Logged w
  | [], w => ⟨rfl, Writer.throughout_nil, rfl⟩
  | act :: rest, w => by
    rw [runAll]
    exact (logged_run act w).andThen (logged_runAll rest _)

end

end WriterAct

/-! ## The acts of a statement -/

namespace Arena

open Outline

/-- Goes on with the text of an expression, or fails for want of one. -/
def withText (a : Arena) (limit : Nat) (id : NodeId) (k : String → List WriterAct) :
    List WriterAct :=
  match a.renderExpr id limit with
  | .error e => [.fail e]
  | .ok text => k text

def lineAct (text : String) : WriterAct := .call (.line text)

def reportActs (ds : List Diagnostic) : List WriterAct := ds.map fun d => .call (.report d)

/-- A body, whose acts are given, one level further in than its header. -/
def blockActs (construct : Construct) (body : List Stmt) (acts : List WriterAct) : List WriterAct :=
  reportActs (emptyBody construct body) ++ [.nested acts]

/-- Goes on with the header of an arm. -/
def withHeader (a : Arena) (limit : Nat) (first : Bool) (cond : Option NodeId)
    (k : String → List WriterAct) : List WriterAct :=
  match first, cond with
  | first, some c => a.withText limit c fun text => k (armHeader first (some text))
  | true, none => [.fail .missingCondition]
  | false, none => k (armHeader false none)

mutual

def stmtActs (a : Arena) (limit : Nat) : Stmt → List WriterAct
  | .expr id => a.withText limit id fun text => [lineAct (text ++ ";")]
  | .comment text => (commentLines text).map lineAct
  | .includeFile path => [lineAct ("#include " ++ path.text)]
  | .forLoop init cond step body =>
    a.withText limit init fun i => a.withText limit cond fun c => a.withText limit step fun s =>
      [lineAct (forHeader i c s)] ++
        (blockActs .forLoop body (a.stmtsActs limit body) ++ [lineAct "\x7d"])
  | .whileLoop cond body =>
    a.withText limit cond fun c =>
      [lineAct (whileHeader c)] ++
        (blockActs .whileLoop body (a.stmtsActs limit body) ++ [lineAct "\x7d"])
  | .ifChain [] => reportActs [.emptyIf]
  | .ifChain (arm :: rest) =>
    reportActs (elseDiagnostics ((arm :: rest).map Branch.cond)) ++
      (a.branchesActs limit true (arm :: rest) ++ [lineAct "\x7d"])
  | .switch subject cases none =>
    reportActs (emptySwitch cases none) ++ a.withText limit subject fun s =>
      [lineAct (switchHeader s)] ++ ([.nested (a.casesActs limit cases)] ++ [lineAct "\x7d"])
  | .switch subject cases (some body) =>
    reportActs (emptySwitch cases (some body)) ++ a.withText limit subject fun s =>
      [lineAct (switchHeader s)] ++
        ([.nested (a.casesActs limit cases ++ ([lineAct "default: \x7b"] ++
          (blockActs .defaultArm body (a.stmtsActs limit body) ++ [lineAct "\x7d break;"])))] ++
        [lineAct "\x7d"])
  | .function signature params body =>
    [lineAct (functionHeader signature params)] ++
      (blockActs .function body (a.stmtsActs limit body) ++ [lineAct "\x7d"])

def stmtsActs (a : Arena) (limit : Nat) : List Stmt → List WriterAct
  | [] => []
  | s :: rest => a.stmtActs limit s ++ a.stmtsActs limit rest

def branchesActs (a : Arena) (limit : Nat) : Bool → List Branch → List WriterAct
  | _, [] => []
  | first, ⟨cond, body⟩ :: rest =>
    a.withHeader limit first cond fun header =>
      [lineAct header] ++
        (blockActs .ifChain body (a.stmtsActs limit body) ++ a.branchesActs limit false rest)

def casesActs (a : Arena) (limit : Nat) : List SwitchCase → List WriterAct
  | [] => []
  | ⟨value, body⟩ :: rest =>
    a.withText limit value fun v =>
      [lineAct (caseHeader v)] ++ (blockActs .caseArm body (a.stmtsActs limit body) ++
        ([lineAct "\x7d break;"] ++ a.casesActs limit rest))

end

/-! ## What statements do -/

/-- On a writer with the limit the action does what the acts do. -/
def Plays (limit : Nat) (m : Emit Unit) (acts : List WriterAct) : Prop :=
  ∀ w : Writer, w.options.maxDepth = limit →
    m w = ((WriterAct.runAll acts w).result, (WriterAct.runAll acts w).writer)

section

variable {a : Arena} {limit : Nat} {m m' : Emit Unit} {acts acts' : List WriterAct}

theorem plays_pure : Plays limit (pure ()) [] := fun _ _ => rfl

theorem plays_line (text : String) : Plays limit (Emit.line text) [lineAct text] := by
  intro w _
  rw [WriterAct.runAll_singleton]
  rfl

theorem plays_report (d : Diagnostic) : Plays limit (Emit.report d) (reportActs [d]) := by
  intro w _
  rw [reportActs, List.map_singleton, WriterAct.runAll_singleton]
  rfl

theorem Plays.bind (h : Plays limit m acts) (h' : Plays limit m' acts') :
    Plays limit (m >>= fun _ => m') (acts ++ acts') := by
  intro w hlimit
  have hoptions := (WriterAct.logged_runAll acts w).options
  rw [emit_bind, h w hlimit, WriterAct.runAll_append]
  generalize WriterAct.runAll acts w = p at hoptions ⊢
  obtain ⟨_ | _, log, w'⟩ := p
  · rfl
  · exact h' w' (hoptions ▸ hlimit)

theorem Plays.nested (h : Plays limit m acts) : Plays limit (Emit.nested m) [.nested acts] := by
  intro w hlimit
  rw [WriterAct.runAll_singleton, Emit.nested, WriterAct.run]
  by_cases hroom : w.depth < w.options.maxDepth
  · rw [w.enter_of_lt hroom]
    simp only [h (WriterEvent.enter.apply w) hlimit]
  · rw [w.enter_of_le (Nat.not_lt.mp hroom)]

/-- An action that starts with the text of an expression. -/
theorem plays_exprText {id : NodeId} {k : String → Emit Unit} {ks : String → List WriterAct}
    (h : ∀ text, Plays limit (k text) (ks text)) :
    Plays limit (a.exprText id >>= k) (a.withText limit id ks) := by
  intro w hlimit
  have hrun : a.exprText id w = (a.renderExpr id limit, w) := by
    rw [← hlimit]
    rfl
  rw [emit_bind, hrun, withText]
  cases a.renderExpr id limit with
  | error e =>
    rw [WriterAct.runAll_singleton]
    rfl
  | ok text => exact h text w hlimit

theorem plays_lines (texts : List String) :
    Plays limit (texts.forM Emit.line) (texts.map lineAct) := by
  induction texts with
  | nil => exact plays_pure
  | cons text rest ih => exact (plays_line text).bind ih

theorem plays_reports (ds : List Diagnostic) : Plays limit (Emit.reportAll ds) (reportActs ds) := by
  induction ds with
  | nil => exact plays_pure
  | cons d rest ih => exact (plays_report d).bind ih

/-- A diagnostic that is reported first, if there is cause for it. -/
theorem Plays.reportIf (h : Plays limit m acts) (cause : Bool) (d : Diagnostic) :
    Plays limit (if cause then Emit.report d >>= fun _ => m else m)
      (reportActs (if cause then [d] else []) ++ acts) := by
  cases cause with
  | false => exact h
  | true => exact (plays_report d).bind h

theorem Plays.block (h : Plays limit m acts) (construct : Construct) (body : List Stmt) :
    Plays limit (writeBlock construct body m) (blockActs construct body acts) :=
  h.nested.reportIf body.isEmpty (.emptyBody construct)

/-- An action that starts with the header of an arm. -/
theorem plays_branchHeader {first : Bool} {cond : Option NodeId} {k : String → Emit Unit}
    {ks : String → List WriterAct} (h : ∀ text, Plays limit (k text) (ks text)) :
    Plays limit (a.branchHeader first cond >>= k) (a.withHeader limit first cond ks) := by
  cases cond with
  | some c =>
    rw [branchHeader_bind]
    cases first <;> exact plays_exprText fun text => h _
  | none =>
    cases first with
    | true =>
      intro w _
      rw [withHeader, WriterAct.runAll_singleton]
      rfl
    | false => exact h _

end

mutual

/-- A statement does what its acts do. -/
theorem plays_stmt (a : Arena) (limit : Nat) :
    ∀ s : Stmt, Plays limit (a.writeStmt s) (a.stmtActs limit s)
  | .expr id => plays_exprText fun _ => plays_line _
  | .comment text => plays_lines _
  | .includeFile path => plays_line _
  | .forLoop init cond step body =>
    plays_exprText fun _ => plays_exprText fun _ => plays_exprText fun _ =>
      (plays_line _).bind (((plays_stmts a limit body).block _ _).bind (plays_line _))
  | .whileLoop cond body =>
    plays_exprText fun _ =>
      (plays_line _).bind (((plays_stmts a limit body).block _ _).bind (plays_line _))
  | .ifChain [] => plays_report _
  | .ifChain (arm :: rest) =>
    (plays_reports _).bind ((plays_branches a limit true (arm :: rest)).bind (plays_line _))
  | .switch subject cases none => by
    have hcases := (plays_cases a limit cases).bind plays_pure
    rw [List.append_nil] at hcases
    exact (plays_exprText fun _ =>
      (plays_line _).bind (hcases.nested.bind (plays_line _))).reportIf _ _
  | .switch subject cases (some body) =>
    (plays_exprText fun _ => (plays_line _).bind
      (((plays_cases a limit cases).bind ((plays_line _).bind
        (((plays_stmts a limit body).block _ _).bind (plays_line _)))).nested.bind
          (plays_line _))).reportIf _ _
  | .function signature params body =>
    (plays_line _).bind (((plays_stmts a limit body).block _ _).bind (plays_line _))

theorem plays_stmts (a : Arena) (limit : Nat) :
    ∀ ss : List Stmt, Plays limit (a.writeAll ss) (a.stmtsActs limit ss)
  | [] => plays_pure
  | s :: rest => (plays_stmt a limit s).bind (plays_stmts a limit rest)

theorem plays_branches (a : Arena) (limit : Nat) : ∀ (first : Bool) (arms : List Branch),
    Plays limit (a.writeBranches first arms) (a.branchesActs limit first arms)
  | _, [] => plays_pure
  | _, ⟨_, body⟩ :: rest =>
    plays_branchHeader fun _ => (plays_line _).bind
      (((plays_stmts a limit body).block _ _).bind (plays_branches a limit false rest))

theorem plays_cases (a : Arena) (limit : Nat) : ∀ arms : List SwitchCase,
    Plays limit (a.writeCases arms) (a.casesActs limit arms)
  | [] => plays_pure
  | ⟨_, body⟩ :: rest =>
    plays_exprText fun _ => (plays_line _).bind
      (((plays_stmts a limit body).block _ _).bind
        ((plays_line _).bind (plays_cases a limit rest)))

end

end Arena

end KernelForge

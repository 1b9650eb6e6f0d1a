import KernelForge.Proofs.Render.Acts

/-!
# Open blocks

The depth of a writer is the number of its open blocks at every moment of a program, whatever the
program does to the level of indentation. A block that is asked for is refused when as many are open
as may be. Afterwards, whatever became of it, the depth is the same again, and the level has changed
by the steps in and out that its body took itself.
-/
namespace KernelForge

/-! ## Programs -/

/-- Acts that are attempted do what they do otherwise, and succeed. -/
theorem WriterAct.runAll_attemptIf (attempted : Bool) (acts : List WriterAct) (w : Writer) :
    runAll (if attempted then [attempt acts] else acts) w =
      ⟨if attempted then .ok () else (runAll acts w).result, (runAll acts w).log,
        (runAll acts w).writer⟩ := by
  cases attempted with
  | true => rw [if_pos rfl, if_pos rfl, runAll_singleton, run]
  | false => rfl

namespace WriterStep

mutual

/-- What a step does up to its own failure. -/
def strictActs (a : Arena) (limit : Nat) : WriterStep → List WriterAct
  | .line text => [.call (.line text)]
  | .moveIn => [.call .moveIn]
  | .moveOut => [.call .moveOut]
  | .nested body => [.nested (acts a limit body)]
  | .fail => [.fail .missingCondition]
  | .emit stmt => a.stmtActs limit stmt
  | .report d => [.call (.report d)]
  | .drainOutput => [.call .drainOutput]
  | .drainDiagnostics => [.call .drainDiagnostics]
  | .options => []
  | .passOn step => strictActs a limit step

/-- What the steps of a block do. A failure that is held back ends the attempt only. -/
def acts (a : Arena) (limit : Nat) : List WriterStep → List WriterAct
  | [] => []
  | s :: rest =>
    (if s.holdsBack then [.attempt (strictActs a limit s)] else strictActs a limit s) ++
      acts a limit rest

end

mutual

theorem run_strictActs (a : Arena) {limit : Nat} : ∀ (s : WriterStep) (r : WriterRun),
    r.writer.options.maxDepth = limit →
    (s.run a r).1 = (WriterAct.runAll (s.strictActs a limit) r.writer).result ∧
      (s.run a r).2.writer = (WriterAct.runAll (s.strictActs a limit) r.writer).writer
  | .nested body, r, hlimit => by
    rw [strictActs, WriterAct.runAll_singleton, run]
    by_cases hroom : r.writer.depth < r.writer.options.maxDepth
    · rw [WriterAct.run_nested_of_lt hroom, r.writer.enter_of_lt hroom]
      have hbody := runAll_acts a body { r with writer := WriterEvent.enter.apply r.writer } hlimit
      exact ⟨hbody.1, congrArg Writer.leave hbody.2⟩
    · have hfull := Nat.not_lt.mp hroom
      rw [WriterAct.run_nested_of_le hfull, r.writer.enter_of_le hfull]
      exact ⟨rfl, rfl⟩
  | .emit stmt, r, hlimit => by
    rw [strictActs, run, a.plays_stmt limit stmt r.writer hlimit]
    exact ⟨rfl, rfl⟩
  | .passOn step, r, hlimit => by
    rw [strictActs, run]
    exact run_strictActs a step r hlimit
  | .line _, _, _ | .moveIn, _, _ | .moveOut, _, _ | .fail, _, _ | .report _, _, _
  | .drainOutput, _, _ | .drainDiagnostics, _, _ | .options, _, _ => ⟨rfl, rfl⟩

/-- A program does what its acts do. -/
theorem runAll_acts (a : Arena) {limit : Nat} : ∀ (steps : List WriterStep) (r : WriterRun),
    r.writer.options.maxDepth = limit →
    (runAll a steps r).1 = (WriterAct.runAll (acts a limit steps) r.writer).result ∧
      (runAll a steps r).2.writer = (WriterAct.runAll (acts a limit steps) r.writer).writer
  | [], _, _ => ⟨rfl, rfl⟩
  | s :: rest, r, hlimit => by
    have hstep := run_strictActs a s r hlimit
    have hoptions := (WriterAct.logged_runAll (s.strictActs a limit) r.writer).options
    rw [runAll, acts, WriterAct.runAll_append, WriterAct.runAll_attemptIf]
    generalize WriterAct.runAll (s.strictActs a limit) r.writer = p at hstep hoptions ⊢
    generalize s.run a r = out at hstep ⊢
    obtain ⟨result, r'⟩ := out
    obtain ⟨result', log, w⟩ := p
    obtain ⟨rfl, rfl⟩ := hstep
    have hrest := runAll_acts a rest r' (hoptions ▸ hlimit)
    by_cases hback : s.holdsBack
    · simp only [if_pos hback]
      cases result <;> exact hrest
    · simp only [if_neg hback]
      cases result with
      | error e => exact ⟨rfl, rfl⟩
      | ok u => exact hrest

end

end WriterStep

/-! ## Asking for blocks -/

namespace WriterAct

/-- Acts that are run on a writer ask for a block with a body after some events. -/
inductive Asks : List WriterAct → Writer → List WriterEvent → List WriterAct → Prop
  | here {body rest : List WriterAct} {w : Writer} : Asks (nested body :: rest) w [] body
  | inside {body rest inner : List WriterAct} {w : Writer} {before : List WriterEvent}
      (room : w.depth < w.options.maxDepth)
      (asks : Asks body (WriterEvent.enter.apply w) before inner) :
      Asks (nested body :: rest) w (.enter :: before) inner
  | attempted {body rest inner : List WriterAct} {w : Writer} {before : List WriterEvent}
      (asks : Asks body w before inner) : Asks (attempt body :: rest) w before inner
  | later {act : WriterAct} {rest inner : List WriterAct} {w : Writer} {before : List WriterEvent}
      (finished : (act.run w).result = .ok ()) (asks : Asks rest (act.run w).writer before inner) :
      Asks (act :: rest) w ((act.run w).log ++ before) inner

theorem exists_log_andThen (p : WriterPlay) (next : Writer → WriterPlay) :
    ∃ more, (p.andThen next).log = p.log ++ more := by
  obtain ⟨_ | _, log, w⟩ := p
  · exact ⟨[], (List.append_nil _).symm⟩
  · exact ⟨_, rfl⟩

/-- What a block does that is asked for happens after the events before. -/
theorem Asks.log {acts body : List WriterAct} {w : Writer} {before : List WriterEvent}
    (h : Asks acts w before body) : ∃ after,
      (runAll acts w).log = before ++ ((nested body).run (w.replay before)).log ++ after := by
  induction h with
  | @here body rest w =>
    rw [runAll]
    exact exists_log_andThen _ _
  | @inside body rest inner w before hroom _ ih =>
    obtain ⟨after, hafter⟩ := ih
    obtain ⟨more, hmore⟩ := exists_log_andThen ((nested body).run w) fun w => runAll rest w
    refine ⟨after ++ [.leave] ++ more, ?_⟩
    rw [runAll, hmore, run_nested_of_lt hroom]
    simp only [hafter, Writer.replay_cons, List.cons_append, List.append_assoc]
  | @attempted body rest inner w before _ ih =>
    obtain ⟨after, hafter⟩ := ih
    obtain ⟨more, hmore⟩ := exists_log_andThen ((attempt body).run w) fun w => runAll rest w
    have hbody : ((attempt body).run w).log = (runAll body w).log := by rw [run]
    refine ⟨after ++ more, ?_⟩
    rw [runAll, hmore, hbody, hafter]
    simp only [List.append_assoc]
  | @later act rest inner w before hfinished _ ih =>
    obtain ⟨after, hafter⟩ := ih
    refine ⟨after, ?_⟩
    rw [runAll, WriterPlay.andThen, hfinished, Writer.replay_append, ← (logged_run act w).writer]
    simp only [hafter, List.append_assoc]

/-- An event of two logs is one of the second or of the first. -/
theorem event_of_append {front more before after : List WriterEvent} {e : WriterEvent}
    (h : front ++ more = before ++ e :: after) :
    (∃ rest, before = front ++ rest ∧ more = rest ++ e :: after) ∨
      ∃ rest, front = before ++ e :: rest := by
  rcases List.append_eq_append_iff.mp h with hlater | ⟨_ | ⟨e', rest⟩, hfront, htail⟩
  · exact Or.inl hlater
  · exact Or.inl ⟨[], by simp [hfront], by simpa using htail.symm⟩
  · obtain ⟨rfl, -⟩ := List.cons.inj htail
    exact Or.inr ⟨rest, hfront⟩

theorem event_of_singleton {e e' : WriterEvent} {before after : List WriterEvent}
    (h : [e'] = before ++ e :: after) : before = [] ∧ e = e' := by
  cases before with
  | nil => exact ⟨rfl, (List.cons.inj h).1.symm⟩
  | cons d more => simp at h

mutual

/-- No block is entered or refused without being asked for. -/
theorem asks_of_run : ∀ (act : WriterAct) (w : Writer) {before after : List WriterEvent}
    {e : WriterEvent}, (act.run w).log = before ++ e :: after → e = .enter ∨ e = .refused →
    ∀ rest, ∃ body, Asks (act :: rest) w before body
  | call c, w, before, after, e, hlog, he, rest => by
    obtain ⟨-, rfl⟩ := event_of_singleton hlog
    simp at he
  | fail _, w, before, after, e, hlog, he, rest => by
    rw [run] at hlog
    simp at hlog
  | nested body, w, before, after, e, hlog, he, rest => by
    by_cases hroom : w.depth < w.options.maxDepth
    · rw [run_nested_of_lt hroom] at hlog
      cases before with
      | nil => exact ⟨body, .here⟩
      | cons d before =>
        obtain ⟨rfl, hinner⟩ := List.cons.inj hlog
        rcases event_of_append hinner with ⟨tail, -, hleave⟩ | ⟨tail, hbody⟩
        · obtain ⟨-, rfl⟩ := event_of_singleton hleave
          simp at he
        · obtain ⟨inner, hasks⟩ := asks_of_runAll body _ hbody he
          exact ⟨inner, .inside hroom hasks⟩
    · rw [run_nested_of_le (Nat.not_lt.mp hroom)] at hlog
      obtain ⟨rfl, -⟩ := event_of_singleton hlog
      exact ⟨body, .here⟩
  | attempt body, w, before, after, e, hlog, he, rest => by
    rw [run] at hlog
    obtain ⟨inner, hasks⟩ := asks_of_runAll body w hlog he
    exact ⟨inner, .attempted hasks⟩

theorem asks_of_runAll : ∀ (acts : List WriterAct) (w : Writer) {before after : List WriterEvent}
    {e : WriterEvent}, (runAll acts w).log = before ++ e :: after → e = .enter ∨ e = .refused →
    ∃ body, Asks acts w before body
  | [], w, before, after, e, hlog, he => by
    rw [runAll] at hlog
    simp at hlog
  | act :: rest, w, before, after, e, hlog, he => by
    rw [runAll, WriterPlay.andThen] at hlog
    split at hlog
    · exact asks_of_run act w hlog he rest
    · rename_i hfinished
      rcases event_of_append hlog with ⟨tail, rfl, hrest⟩ | ⟨tail, hfirst⟩
      · obtain ⟨body, hasks⟩ := asks_of_runAll rest _ hrest he
        exact ⟨body, .later hfinished hasks⟩
      · exact asks_of_run act w hfirst he rest

end

end WriterAct

/-! ## Counting -/

/-- The number of blocks that were entered and not left. -/
def openBlocks (log : List WriterEvent) : Nat := log.count .enter - log.count .leave

namespace WriterEvent

variable {e : WriterEvent} {w : Writer}

/-- Where an event may happen if the level of indentation is not to go below zero. -/
def InLevels (e : WriterEvent) (w : Writer) : Prop :=
  e = .leave ∨ e = .call .moveOut → 0 < w.indent

instance (e : WriterEvent) (w : Writer) : Decidable (e.InLevels w) :=
  inferInstanceAs (Decidable (_ → _))

theorem depth_apply (h : e.Allowed w) :
    (e.apply w).depth + [e].count .leave = w.depth + [e].count .enter := by
  rcases e with c | _ | _ | _
  · have hdepth : ((call c).apply w).depth = w.depth := by cases c <;> rfl
    simp [hdepth]
  · rfl
  · rfl
  · exact Nat.sub_add_cancel h

theorem depth_apply_le (h : e.Allowed w) (hdepth : w.depth ≤ w.options.maxDepth) :
    (e.apply w).depth ≤ w.options.maxDepth := by
  rcases e with c | _ | _ | _
  · cases c <;> exact hdepth
  · exact h
  · exact hdepth
  · exact Nat.le_trans (Nat.sub_le _ _) hdepth

theorem indent_apply (h : e.InLevels w) :
    (e.apply w).indent + ([e].count .leave + [e].count (.call .moveOut)) =
      w.indent + ([e].count .enter + [e].count (.call .moveIn)) := by
  rcases e with (_ | _ | _ | _ | _ | _) | _ | _ | _
  case leave => exact Nat.sub_add_cancel (h (Or.inl rfl))
  case call.moveOut => exact Nat.sub_add_cancel (h (Or.inr rfl))
  all_goals simp [apply, WriterCall.apply, Writer.line, Writer.moveIn, Writer.report,
    Writer.drainOutput, Writer.drainDiagnostics]

end WriterEvent

namespace Writer

variable {w : Writer} {log : List WriterEvent}

theorem depth_replay (h : w.Throughout WriterEvent.Allowed log) :
    (w.replay log).depth + log.count .leave = w.depth + log.count .enter := by
  induction log generalizing w with
  | nil => rfl
  | cons e rest ih =>
    obtain ⟨hallowed, hrest⟩ := throughout_cons.mp h
    have hfirst := WriterEvent.depth_apply hallowed
    have hafter := ih hrest
    rw [replay_cons, ← List.singleton_append, List.count_append, List.count_append]
    omega

theorem depth_replay_le (h : w.Throughout WriterEvent.Allowed log)
    (hdepth : w.depth ≤ w.options.maxDepth) : (w.replay log).depth ≤ w.options.maxDepth := by
  induction log generalizing w with
  | nil => exact hdepth
  | cons e rest ih =>
    obtain ⟨hallowed, hrest⟩ := throughout_cons.mp h
    have hafter := ih hrest
    rw [w.options_apply e] at hafter
    exact hafter (WriterEvent.depth_apply_le hallowed hdepth)

theorem indent_replay (h : w.Throughout WriterEvent.InLevels log) :
    (w.replay log).indent + (log.count .leave + log.count (.call .moveOut)) =
      w.indent + (log.count .enter + log.count (.call .moveIn)) := by
  induction log generalizing w with
  | nil => rfl
  | cons e rest ih =>
    obtain ⟨hlevel, hrest⟩ := throughout_cons.mp h
    have hfirst := WriterEvent.indent_apply hlevel
    have hafter := ih hrest
    rw [replay_cons, ← List.singleton_append, List.count_append, List.count_append,
      List.count_append, List.count_append]
    omega

end Writer

/-! ## Blocks -/

/-- What becomes of a block that is asked for after some events. -/
structure BlockAsked (limit : Nat) (before : List WriterEvent) (body : List WriterAct)
    (w : Writer) : Prop where
  /-- With as many blocks open as may be the body is not run, and the writer stays as it is. -/
  refused : openBlocks before = limit →
    (WriterAct.nested body).run w = ⟨.error (.nestingTooDeep limit), [.refused], w⟩
  entered : openBlocks before ≠ limit → ∃ p,
    p = WriterAct.runAll body (WriterEvent.enter.apply w) ∧
    (WriterAct.nested body).run w =
      ⟨p.result, .enter :: (p.log ++ [.leave]), p.writer.leave⟩
  depth : ((WriterAct.nested body).run w).writer.depth = w.depth
  /-- The level changes by the steps in and out that the body takes itself, inner blocks
  included. -/
  indent : ((WriterAct.nested body).run w).writer.indent +
      ((WriterAct.nested body).run w).log.count (.call .moveOut) =
    w.indent + ((WriterAct.nested body).run w).log.count (.call .moveIn)

theorem blockAsked_of_inLevels {limit : Nat} {before : List WriterEvent} {body : List WriterAct}
    {w : Writer} (hlimit : w.options.maxDepth = limit) (hopen : w.depth = openBlocks before)
    (hle : openBlocks before ≤ limit)
    (hlevel : w.Throughout WriterEvent.InLevels ((WriterAct.nested body).run w).log) :
    BlockAsked limit before body w := by
  obtain ⟨hwriter, hallowed, hdepth⟩ := WriterAct.logged_run (.nested body) w
  -- a block is left as often as it is entered, so that steps in and out are all that counts
  have hcount := Writer.depth_replay hallowed
  have hmoved := Writer.indent_replay hlevel
  rw [← hwriter] at hcount hmoved
  refine ⟨fun hfull => ?_, fun hroom => ⟨_, rfl, ?_⟩, hdepth, by omega⟩
  · rw [WriterAct.run_nested_of_le (by omega), hlimit]
  · exact WriterAct.run_nested_of_lt (by omega)

namespace WriterStep

/-- What a program does, with what happens on the way. -/
def play (a : Arena) (options : RenderOptions) (steps : List WriterStep) : WriterPlay :=
  WriterAct.runAll (acts a options.maxDepth steps) (Writer.new options)

/-- A program asks for a block with a body after some events, by a step or inside a statement. -/
def Asks (a : Arena) (options : RenderOptions) (steps : List WriterStep)
    (before : List WriterEvent) (body : List WriterAct) : Prop :=
  WriterAct.Asks (acts a options.maxDepth steps) (Writer.new options) before body

/-- The depth counts the open blocks in a run of a program. -/
structure CountsBlocks (a : Arena) (options : RenderOptions) (steps : List WriterStep) : Prop where
  /-- The events are those of the run. -/
  run : (play a options steps).result = (runAll a steps ⟨Writer.new options, []⟩).1 ∧
    (play a options steps).writer = (runAll a steps ⟨Writer.new options, []⟩).2.writer ∧
    (play a options steps).writer = (Writer.new options).replay (play a options steps).log
  /-- At every moment the depth is the number of open blocks. -/
  moment : ∀ before after, (play a options steps).log = before ++ after →
    before.count .leave ≤ before.count .enter ∧
    ((Writer.new options).replay before).depth = openBlocks before ∧
    openBlocks before ≤ options.maxDepth
  asked : ∀ before body, Asks a options steps before body →
    (∃ after, (play a options steps).log = before ++
      ((WriterAct.nested body).run ((Writer.new options).replay before)).log ++ after) ∧
    BlockAsked options.maxDepth before body ((Writer.new options).replay before)
  /-- No block is entered or refused that is not asked for. -/
  asks : ∀ before e after, (play a options steps).log = before ++ e :: after →
    e = .enter ∨ e = .refused → ∃ body, Asks a options steps before body

/-- Up to any moment no more blocks were left than entered, and the depth is the number of the
others. -/
theorem depth_play {a : Arena} {options : RenderOptions} {steps : List WriterStep}
    {before after : List WriterEvent} (hlog : (play a options steps).log = before ++ after) :
    before.count .leave ≤ before.count .enter ∧
      ((Writer.new options).replay before).depth = openBlocks before ∧
      openBlocks before ≤ options.maxDepth := by
  have hallowed :=
    (WriterAct.logged_runAll (acts a options.maxDepth steps) (Writer.new options)).allowed
  have hbefore : (Writer.new options).Throughout WriterEvent.Allowed before :=
    (Writer.throughout_append.mp (hlog ▸ hallowed)).1
  have hdepth := Writer.depth_replay hbefore
  have hle := Writer.depth_replay_le hbefore (Nat.zero_le _)
  have hzero : (Writer.new options).depth = 0 := rfl
  have hlimit : (Writer.new options).options.maxDepth = options.maxDepth := rfl
  unfold openBlocks
  omega

/-- In a program that does not go below level zero the depth is the number of open blocks at every
moment, which is no more than the limit. A block that is asked for is refused if and only if as many
are open as the limit allows. The depth is the same afterwards, and the level has changed by the
steps of the body alone. -/
theorem countsBlocks_of_inLevels {a : Arena} {options : RenderOptions} {steps : List WriterStep}
    (hlevel : (Writer.new options).Throughout WriterEvent.InLevels (play a options steps).log) :
    CountsBlocks a options steps := by
  have hwriter :=
    (WriterAct.logged_runAll (acts a options.maxDepth steps) (Writer.new options)).writer
  obtain ⟨hresult, hsame⟩ :=
    runAll_acts a steps ⟨Writer.new options, []⟩ (rfl : _ = options.maxDepth)
  refine ⟨⟨hresult.symm, hsame.symm, hwriter⟩, fun before after => depth_play,
    fun before body hasks => ?_, fun before e after hlog he => WriterAct.asks_of_runAll _ _ hlog he⟩
  obtain ⟨after, hlog⟩ := hasks.log
  obtain ⟨-, hopen, hle⟩ := depth_play (hlog.trans (List.append_assoc ..))
  have hlimit : ((Writer.new options).replay before).options.maxDepth = options.maxDepth := by
    rw [Writer.options_replay]
    rfl
  have hinner : ((Writer.new options).replay before).Throughout WriterEvent.InLevels
      ((WriterAct.nested body).run ((Writer.new options).replay before)).log := by
    rw [play, hlog, Writer.throughout_append, Writer.throughout_append] at hlevel
    exact hlevel.1.2
  exact ⟨⟨after, hlog⟩, blockAsked_of_inLevels hlimit hopen hle hinner⟩

/-- Blocks in a block, one of which fails after it asked for another one, and a loop in a loop. -/
def climbing : List WriterStep :=
  [.moveIn, .nested [.moveIn, .nested [.moveOut, .nested [.line "a"], .fail, .moveOut],
    .emit (.whileLoop ⟨0⟩ [.whileLoop ⟨0⟩ []])], .line "b"]

theorem countsBlocks_climbing :
    let a : Arena := ⟨#[.leaf (.scalar .u32 "x")], #[]⟩
    let options : RenderOptions := { maxDepth := 2 }
    (play a options climbing).log.count .refused = 2 ∧ CountsBlocks a options climbing :=
  ⟨by decide +kernel, countsBlocks_of_inLevels (by decide +kernel)⟩

/-- Blocks that pass the refusal of the innermost on, so that all of them are left. -/
example :
    let p := play Arena.empty { maxDepth := 2 }
      [.passOn (.nested [.passOn (.nested [.passOn (.nested [])])])]
    p.result = .error (.nestingTooDeep 2) ∧ p.log = [.enter, .enter, .refused, .leave, .leave] ∧
      p.writer.indent = 0 :=
  ⟨rfl, rfl, rfl⟩

end WriterStep

end KernelForge

import KernelForge.Proofs.Render.Expression
import KernelForge.Proofs.Render.Layout
import Mathlib.Algebra.Group.Nat.Defs

/-!
# Renderings wherever the writer stands

What a statement comes to depends on the writer only through the limit and the number of open
blocks, and that only in how far it comes. The writer may stand at any level, with any margin, behind
any other text. It is back at its level in the end, also when the statement fails halfway.
-/
namespace KernelForge

/-! ## The levels of lines -/

namespace Outline

theorem level_bracketed {header footer : String} {block : List Line} {n : Nat}
    (h : ∀ l ∈ block, l.level ≤ n) : ∀ l ∈ bracketed header block footer, l.level ≤ n + 1 := by
  simp only [bracketed, List.forall_mem_cons, List.forall_mem_append, List.forall_mem_map]
  exact ⟨Nat.zero_le _, fun l hl => Nat.succ_le_succ (h l hl), Nat.zero_le _, by simp⟩

mutual

/-- The lines of a statement lie no further in than its blocks nest. -/
theorem level_lines (f : NodeId → String) :
    ∀ s : Stmt, ∀ l ∈ (s.outline f).lines, l.level ≤ s.skeleton.nesting
  | .expr _ | .includeFile _ => by simp [Stmt.outline, lines]
  | .comment text => by simp [Stmt.outline, lines]
  | .forLoop _ _ _ body | .whileLoop _ body | .function _ _ body =>
    level_bracketed (level_linesAll f body)
  | .ifChain [] => by simp [Stmt.outline, Branch.outlineAll, lines]
  | .ifChain (⟨cond, body⟩ :: rest) => by
    simp only [Stmt.outline, Branch.outlineAll, lines, List.forall_mem_append]
    exact ⟨level_armLines f true (⟨cond, body⟩ :: rest), by simp⟩
  | .switch _ cases none => level_bracketed (level_caseLines f cases)
  | .switch _ cases (some body) => by
    refine level_bracketed (n := max _ _) <|
      List.forall_mem_append.mpr ⟨fun l hl => ?_, fun l hl => ?_⟩
    · exact Nat.le_trans (level_caseLines f cases l hl) (Nat.le_max_left _ _)
    · exact Nat.le_trans (level_bracketed (level_linesAll f body) l hl) (Nat.le_max_right _ _)

theorem level_linesAll (f : NodeId → String) : ∀ ss : List Stmt,
    ∀ l ∈ linesAll (Stmt.outlineAll f ss), l.level ≤ nestingAll (Stmt.outlineAll (fun _ => ()) ss)
  | [] => by simp [Stmt.outlineAll, linesAll]
  | s :: rest => List.forall_mem_append.mpr
    ⟨fun l hl => Nat.le_trans (level_lines f s l hl) (Nat.le_max_left _ _),
      fun l hl => Nat.le_trans (level_linesAll f rest l hl) (Nat.le_max_right _ _)⟩

theorem level_armLines (f : NodeId → String) : ∀ (first : Bool) (arms : List Branch),
    ∀ l ∈ Arm.linesAll first (Branch.outlineAll f arms),
      l.level ≤ Arm.nestingAll (Branch.outlineAll (fun _ => ()) arms)
  | _, [] => by simp [Branch.outlineAll, Arm.linesAll]
  | first, ⟨cond, body⟩ :: rest => by
    simp only [Branch.outlineAll, Arm.linesAll, Arm.nestingAll, List.forall_mem_cons,
      List.forall_mem_append, List.forall_mem_map]
    refine ⟨Nat.zero_le _, fun l hl => ?_, fun l hl => ?_⟩
    · exact Nat.le_trans (Nat.succ_le_succ (level_linesAll f body l hl)) (Nat.le_max_left _ _)
    · exact Nat.le_trans (level_armLines f false rest l hl) (Nat.le_max_right _ _)

theorem level_caseLines (f : NodeId → String) : ∀ cases : List SwitchCase,
    ∀ l ∈ Case.linesAll (SwitchCase.outlineAll f cases),
      l.level ≤ Case.nestingAll (SwitchCase.outlineAll (fun _ => ()) cases)
  | [] => by simp [SwitchCase.outlineAll, Case.linesAll]
  | ⟨value, body⟩ :: rest => List.forall_mem_append.mpr
    ⟨fun l hl => Nat.le_trans (level_bracketed (level_linesAll f body) l hl) (Nat.le_max_left _ _),
      fun l hl => Nat.le_trans (level_caseLines f rest l hl) (Nat.le_max_right _ _)⟩

end

/-- The lines of a list lie no further in than the blocks of one of its statements nest. -/
theorem exists_level_le {f : NodeId → String} {ss : List Stmt} {l : Line}
    (h : l ∈ linesAll (Stmt.outlineAll f ss)) : ∃ s ∈ ss, l.level ≤ s.skeleton.nesting := by
  induction ss with
  | nil => simp [Stmt.outlineAll, linesAll] at h
  | cons s rest ih =>
    rcases List.mem_append.mp h with hfirst | hrest
    · exact ⟨s, List.mem_cons_self, level_lines f s l hfirst⟩
    · obtain ⟨t, ht, hle⟩ := ih hrest
      exact ⟨t, List.mem_cons_of_mem _ ht, hle⟩

end Outline

/-! ## Courses -/

namespace Arena

/-- The text of an expression within the size of its arena is the text within every limit that it
fits into. -/
theorem textWithin_size {a : Arena} {id : NodeId} {limit : Nat} {text : String}
    (h : a.renderExpr id limit = .ok text) : a.textWithin a.size id = text := by
  have hwf := (renderWithin_eq_ok_iff_unfolds.mp h).2.2.1
  have hlt := get?_isSome_iff.mp hwf.resolves
  exact textWithin_of_ok (renderExpr_of_index_le h (Nat.le_of_lt hlt))

/-- What an action does when `depth` blocks are open. The result, the lines and the diagnostics are
the same for every writer. They are a beginning of the emission, and all of it if the action
succeeds. -/
structure Course (m : Emit Unit) (e : Emission) (limit depth : Nat)
    (result : Except RenderError Unit) (lines : List Line) (misuses : List Diagnostic) : Prop where
  run : ∀ w : Writer, w.options.maxDepth = limit → w.depth = depth →
    m w = (result, w.after lines misuses)
  written : lines <+: e.lines
  reported : misuses <+: e.misuses
  finished : result = .ok () → lines = e.lines ∧ misuses = e.misuses

/-- The action has a course under each limit and with each number of open blocks. -/
def Writes (m : Emit Unit) (e : Emission) : Prop :=
  ∀ limit depth, ∃ result lines misuses, Course m e limit depth result lines misuses

/-- A failure before anything was written. -/
theorem Course.refused {m : Emit Unit} {e : Emission} {limit depth : Nat} (error : RenderError)
    (h : ∀ w : Writer, w.options.maxDepth = limit → w.depth = depth → m w = (.error error, w)) :
    Course m e limit depth (.error error) [] [] where
  run w hlimit hdepth := by rw [h w hlimit hdepth, Writer.after_nil]
  written := List.nil_prefix
  reported := List.nil_prefix
  finished herror := by cases herror

theorem Course.complete {m : Emit Unit} {e : Emission} {limit depth : Nat}
    (h : ∀ w : Writer, m w = (.ok (), w.after e.lines e.misuses)) :
    Course m e limit depth (.ok ()) e.lines e.misuses where
  run w _ _ := h w
  written := List.prefix_rfl
  reported := List.prefix_rfl
  finished _ := ⟨rfl, rfl⟩

theorem Writes.bind {m m' : Emit Unit} {e e' : Emission} (h : Writes m e) (h' : Writes m' e') :
    Writes (m >>= fun _ => m') (e.andThen e') := by
  intro limit depth
  obtain ⟨result, lines, misuses, hc⟩ := h limit depth
  cases result with
  | error error =>
    refine ⟨.error error, lines, misuses, ?_, ?_, ?_, by simp⟩
    · intro w hlimit hdepth
      rw [emit_bind, hc.run w hlimit hdepth]
    · exact hc.written.trans (List.prefix_append _ _)
    · exact hc.reported.trans (List.prefix_append _ _)
  | ok u =>
    -- the second action starts behind the whole of the first one, with the same blocks open
    obtain ⟨rfl, rfl⟩ := hc.finished rfl
    obtain ⟨result', lines', misuses', hc'⟩ := h' limit depth
    refine ⟨result', e.lines ++ lines', e.misuses ++ misuses', ?_, ?_, ?_, ?_⟩
    · intro w hlimit hdepth
      rw [emit_bind, hc.run w hlimit hdepth]
      have hrun := hc'.run (w.after e.lines e.misuses) hlimit hdepth
      rwa [Writer.after_after] at hrun
    · exact (List.prefix_append_right_inj _).mpr hc'.written
    · exact (List.prefix_append_right_inj _).mpr hc'.reported
    · intro hok
      obtain ⟨rfl, rfl⟩ := hc'.finished hok
      exact ⟨rfl, rfl⟩

theorem Writes.nested {m : Emit Unit} {e : Emission} (h : Writes m e) :
    Writes (Emit.nested m) e.inside := by
  intro limit depth
  by_cases hroom : depth < limit
  · obtain ⟨result, lines, misuses, hc⟩ := h limit (depth + 1)
    refine ⟨result, lines.map Line.inner, misuses, ?_, hc.written.map _, hc.reported, ?_⟩
    · rintro w rfl rfl
      have hinner : w.enter = .ok { w with depth := w.depth + 1, indent := w.indent + 1 } := by
        rw [Writer.enter, if_neg (by omega)]
      have hrun := hc.run { w with depth := w.depth + 1, indent := w.indent + 1 } rfl rfl
      simp only [Emit.nested, hinner, hrun, Writer.leave_after hinner]
    · intro hok
      obtain ⟨rfl, rfl⟩ := hc.finished hok
      exact ⟨rfl, rfl⟩
  · refine ⟨_, _, _, Course.refused (.nestingTooDeep limit) ?_⟩
    rintro w rfl rfl
    simp only [Emit.nested, Writer.enter_eq_error_iff.mpr ⟨Nat.not_lt.mp hroom, rfl⟩]

theorem Writes.exprText {a : Arena} {id : NodeId} {e : Emission} {k : String → Emit Unit}
    (h : Writes (k (a.textWithin a.size id)) e) : Writes (a.exprText id >>= k) (e.needing id) := by
  intro limit depth
  have hrun : ∀ w : Writer, w.options.maxDepth = limit →
      a.exprText id w = (a.renderExpr id limit, w) := by
    rintro w rfl
    rfl
  cases htext : a.renderExpr id limit with
  | error error =>
    refine ⟨_, _, _, Course.refused error fun w hlimit _ => ?_⟩
    rw [emit_bind, hrun w hlimit, htext]
  | ok text =>
    rw [textWithin_size htext] at h
    obtain ⟨result, lines, misuses, hc⟩ := h limit depth
    refine ⟨result, lines, misuses, ?_, hc.written, hc.reported, hc.finished⟩
    intro w hlimit hdepth
    rw [emit_bind, hrun w hlimit, htext]
    exact hc.run w hlimit hdepth

theorem writes_rules (a : Arena) : a.Rules a.size Writes where
  pure _ _ := ⟨_, _, _, .complete fun w => by rw [Writer.after_nil]; rfl⟩
  line text _ _ := ⟨_, _, _, .complete fun w => congrArg (Prod.mk _) (w.line_eq_after text)⟩
  report d _ _ := ⟨_, _, _, .complete fun w => congrArg (Prod.mk _)
    (by simp [Writer.report, Writer.after])⟩
  bind := .bind
  nested := .nested
  exprText := .exprText
  missingCondition _ _ _ _ := ⟨_, _, _, .refused .missingCondition fun _ _ _ => rfl⟩

/-- A statement leaves the writer at its level and its depth, and all that it writes and reports
comes behind what was there, whether or not it fails. -/
theorem writeStmt_frame (a : Arena) (s : Stmt) (w : Writer) :
    (a.writeStmt s w).2.indent = w.indent ∧ (a.writeStmt s w).2.depth = w.depth ∧
      (∃ text, (a.writeStmt s w).2.output = w.output ++ text) ∧
      w.diagnostics <+: (a.writeStmt s w).2.diagnostics := by
  obtain ⟨result, lines, misuses, hc⟩ := a.writes_rules.stmt s w.options.maxDepth w.depth
  rw [hc.run w rfl rfl]
  exact ⟨rfl, rfl, ⟨_, rfl⟩, List.prefix_append _ _⟩

theorem writeAll_append (a : Arena) (ss ts : List Stmt) :
    a.writeAll (ss ++ ts) = a.writeAll ss >>= fun _ => a.writeAll ts := by
  induction ss with
  | nil => rfl
  | cons s rest ih => simp only [List.cons_append, writeAll, ih, bind_assoc]

/-- A rendering of two lists is the rendering of the one with that of the other behind it. -/
theorem render_append (a : Arena) (ss ts : List Stmt) (options : RenderOptions) :
    a.render (ss ++ ts) options = do
      let first ← a.render ss options
      let second ← a.render ts options
      return ⟨first.code ++ second.code, first.diagnostics ++ second.diagnostics⟩ := by
  obtain ⟨result, lines, misuses, hc⟩ := a.writes_rules.stmts ss options.maxDepth 0
  obtain ⟨result', lines', misuses', hc'⟩ := a.writes_rules.stmts ts options.maxDepth 0
  have hfirst := hc.run (Writer.new options) rfl rfl
  have hsecond := hc'.run (Writer.new options) rfl rfl
  have hbehind := hc'.run ((Writer.new options).after lines misuses) rfl rfl
  rw [render, render, render, writeAll_append, emit_bind, hfirst, hsecond]
  cases result with
  | error error => rfl
  | ok u =>
    simp only [hbehind]
    cases result' with
    | error error => rfl
    | ok u => simp [bind, Except.bind, pure, Except.pure, Writer.after, Writer.new]

/-- Another width changes the margins and nothing else. -/
theorem render_setWidth (a : Arena) (stmts : List Stmt) (options : RenderOptions) (width : Nat) :
    a.render stmts { options with indentWidth := width } =
      (a.render stmts options).map fun _ =>
        ⟨layOut width 0 (a.stmtsEmission a.size stmts).lines, Stmt.misusesAll stmts⟩ := by
  obtain ⟨result, lines, misuses, hc⟩ := a.writes_rules.stmts stmts options.maxDepth 0
  have hold := hc.run (Writer.new options) rfl rfl
  have hnew := hc.run (Writer.new { options with indentWidth := width }) rfl rfl
  rw [render, render, hold, hnew]
  cases result with
  | error error => rfl
  | ok u =>
    obtain ⟨rfl, rfl⟩ := hc.finished rfl
    simp [Except.map, Writer.after, Writer.new]

/-- For every list of statements there are lines and diagnostics that it writes and reports wherever
it is written to the end, each line at its level counted from that of the writer. No line lies
further in than the blocks of its statement nest, and the margins are those of a machine while the
products of level and width fit into 64 bits. Whether the list is written to the end, or with which
error it fails, depends on the limit and the number of open blocks only. So a rendering of two lists
is that of the one behind that of the other, and another width changes the margins only. A statement
that fails leaves the writer at its level and its depth, too, and what was there before is kept. -/
theorem writeAll_anywhere (a : Arena) (stmts : List Stmt) :
    (∃ (lines : List Line) (misuses : List Diagnostic),
      (∀ l ∈ lines, ∃ s ∈ stmts, l.level ≤ s.skeleton.nesting) ∧
      (∀ w w' : Writer, a.writeAll stmts w = (.ok (), w') →
        ((∀ l ∈ lines, (w.indent + l.level) * w.options.indentWidth < 2 ^ 64) →
          w'.output = w.output ++ String.join (lines.map fun l =>
            Writer.spaces ((w.indent + l.level) * w.options.indentWidth) ++ l.text ++ "\n")) ∧
        w'.diagnostics = w.diagnostics ++ misuses) ∧
      ∀ options width, (∀ l ∈ lines, l.level * width < 2 ^ 64) →
        a.render stmts { options with indentWidth := width } =
          (a.render stmts options).map fun _ =>
            ⟨String.join (lines.map fun l => Writer.spaces (l.level * width) ++ l.text ++ "\n"),
              misuses⟩) ∧
    (∀ w v : Writer, w.options.maxDepth = v.options.maxDepth → w.depth = v.depth →
      (a.writeAll stmts w).1 = (a.writeAll stmts v).1) ∧
    (∀ more options, a.render (stmts ++ more) options = do
      let first ← a.render stmts options
      let second ← a.render more options
      return ⟨first.code ++ second.code, first.diagnostics ++ second.diagnostics⟩) ∧
    ∀ (s : Stmt) (w : Writer),
      (a.writeStmt s w).2.indent = w.indent ∧ (a.writeStmt s w).2.depth = w.depth ∧
      (∃ text, (a.writeStmt s w).2.output = w.output ++ text) ∧
      w.diagnostics <+: (a.writeStmt s w).2.diagnostics := by
  refine ⟨⟨(a.stmtsEmission a.size stmts).lines, Stmt.misusesAll stmts,
    fun _ => Outline.exists_level_le, ?_, ?_⟩, ?_, ?_, ?_⟩
  · intro w w' hrun
    obtain ⟨result, lines, misuses, hc⟩ := a.writes_rules.stmts stmts w.options.maxDepth w.depth
    obtain ⟨rfl, rfl⟩ := Prod.mk.inj (hrun.symm.trans (hc.run w rfl rfl))
    obtain ⟨rfl, rfl⟩ := hc.finished rfl
    exact ⟨fun _ => rfl, rfl⟩
  · intro options width _
    have hwritten : Line.written width 0 =
        fun l => Writer.spaces (l.level * width) ++ l.text ++ "\n" := by
      funext l
      simp [Line.written]
    rw [a.render_setWidth stmts options width, layOut, hwritten]
  · intro w v hlimit hdepth
    obtain ⟨result, lines, misuses, hc⟩ := a.writes_rules.stmts stmts v.options.maxDepth v.depth
    rw [hc.run w hlimit hdepth, hc.run v rfl rfl]
  · exact a.render_append stmts
  · exact a.writeStmt_frame

end Arena

end KernelForge

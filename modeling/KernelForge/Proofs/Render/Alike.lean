import KernelForge.Proofs.Render.Layout
import KernelForge.Proofs.Render.Term

/-!
# Statements that are rendered alike

What is written for a statement depends on its outline over the outcomes of its expressions, and on
nothing else. Two statements with one such outline come to the same text and the same diagnostics,
or fail in the same way, even if they lie in different arenas.
-/
namespace KernelForge

/-! ## Misuses of `else` -/

theorem misplacedElse_congr {cs ds : List (Option NodeId)}
    (h : cs.map Option.isNone = ds.map Option.isNone) : misplacedElse cs = misplacedElse ds := by
  have hpattern : ∀ conds : List (Option NodeId), misplacedElse conds =
      ((conds.map Option.isNone).zipIdx.filter fun (b, i) =>
        b && i != 0 && i + 1 != (conds.map Option.isNone).length).map
          fun (_, i) => .misplacedElse i := by
    intro conds
    simp [misplacedElse, List.zipIdx_map, List.filter_map, Function.comp_def]
  rw [hpattern, hpattern, h]

theorem multipleElse_congr {cs ds : List (Option NodeId)}
    (h : cs.map Option.isNone = ds.map Option.isNone) : multipleElse cs = multipleElse ds := by
  have hcount : ∀ conds : List (Option NodeId),
      conds.countP Option.isNone = (conds.map Option.isNone).countP id := by
    intro conds
    rw [List.countP_map, Function.id_comp]
  simp only [multipleElse, hcount, h]

/-- The diagnostics of a chain depend on which arms lack a condition. -/
theorem elseDiagnostics_congr {cs ds : List (Option NodeId)}
    (h : cs.map Option.isNone = ds.map Option.isNone) :
    elseDiagnostics cs = elseDiagnostics ds := by
  rw [elseDiagnostics, elseDiagnostics, misplacedElse_congr h, multipleElse_congr h]

section

variable {α : Type} {f g : NodeId → α}

theorem Branch.isNone_cond_of_outlineAll {arms arms' : List Branch}
    (h : Branch.outlineAll f arms = Branch.outlineAll g arms') :
    (arms.map Branch.cond).map Option.isNone = (arms'.map Branch.cond).map Option.isNone := by
  induction arms generalizing arms' with
  | nil => rcases arms' with _ | ⟨⟨_, _⟩, _⟩ <;> simp_all [Branch.outlineAll]
  | cons arm rest ih =>
    obtain ⟨cond, body⟩ := arm
    cases arms' with
    | nil => simp [Branch.outlineAll] at h
    | cons arm' rest' =>
      obtain ⟨cond', body'⟩ := arm'
      simp only [Branch.outlineAll, List.cons.injEq, Outline.Arm.mk.injEq] at h
      have hnone : cond.isNone = cond'.isNone := by
        simpa using congrArg Option.isNone h.1.1
      simp only [List.map_cons, Branch.cond, hnone, ih h.2]

theorem Stmt.isEmpty_of_outlineAll {ss ts : List Stmt}
    (h : Stmt.outlineAll f ss = Stmt.outlineAll g ts) : ss.isEmpty = ts.isEmpty := by
  cases ss <;> cases ts <;> simp_all [Stmt.outlineAll]

theorem Branch.isEmpty_of_outlineAll {arms arms' : List Branch}
    (h : Branch.outlineAll f arms = Branch.outlineAll g arms') : arms.isEmpty = arms'.isEmpty := by
  rcases arms with _ | ⟨⟨_, _⟩, _⟩ <;> rcases arms' with _ | ⟨⟨_, _⟩, _⟩ <;>
    simp_all [Branch.outlineAll]

theorem SwitchCase.isEmpty_of_outlineAll {cases cases' : List SwitchCase}
    (h : SwitchCase.outlineAll f cases = SwitchCase.outlineAll g cases') :
    cases.isEmpty = cases'.isEmpty := by
  rcases cases with _ | ⟨⟨_, _⟩, _⟩ <;> rcases cases' with _ | ⟨⟨_, _⟩, _⟩ <;>
    simp_all [SwitchCase.outlineAll]

end

/-! ## Actions on a writer -/

namespace Emit

/-- The actions do the same to a writer. Only the ids that an error names may differ. -/
def Alike {α : Type} (limit : Nat) (m m' : Emit α) : Prop :=
  ∀ w : Writer, w.options.maxDepth = limit →
    outcome (m w).1 = outcome (m' w).1 ∧ (m w).2 = (m' w).2 ∧ (m w).2.options = w.options

section

variable {limit : Nat}

theorem alike_pure {α : Type} (x : α) : Alike limit (pure x) (pure x) := fun _ _ => ⟨rfl, rfl, rfl⟩

theorem alike_line (text : String) : Alike limit (line text) (line text) :=
  fun _ _ => ⟨rfl, rfl, rfl⟩

theorem alike_report (d : Diagnostic) : Alike limit (report d) (report d) :=
  fun _ _ => ⟨rfl, rfl, rfl⟩

theorem alike_throw {α : Type} (e : RenderError) :
    Alike limit (throw e : Emit α) (throw e : Emit α) := fun _ _ => ⟨rfl, rfl, rfl⟩

theorem Alike.bind {α β : Type} {m m' : Emit α} {f f' : α → Emit β} (h : Alike limit m m')
    (hf : ∀ x, Alike limit (f x) (f' x)) : Alike limit (m >>= f) (m' >>= f') := by
  intro w hw
  obtain ⟨hout, hafter, hoptions⟩ := h w hw
  rw [Arena.emit_bind, Arena.emit_bind]
  obtain ⟨r, v, hm⟩ : ∃ r v, m w = (r, v) := ⟨_, _, rfl⟩
  obtain ⟨r', v', hm'⟩ : ∃ r' v', m' w = (r', v') := ⟨_, _, rfl⟩
  rw [hm, hm'] at hout hafter
  rw [hm] at hoptions
  obtain rfl : v = v' := hafter
  rw [hm, hm']
  cases r with
  | ok x =>
    -- both go on with one value from one writer
    obtain rfl : r' = .ok x := outcome_eq_ok_iff.mp hout.symm
    obtain ⟨hout', hafter', hoptions'⟩ := hf x v (by rw [hoptions, hw])
    exact ⟨hout', hafter', hoptions'.trans hoptions⟩
  | error e =>
    cases r' with
    | ok x => simp at hout
    | error e' => exact ⟨by simpa using hout, rfl, hoptions⟩

theorem Alike.nested {m m' : Emit Unit} (h : Alike limit m m') :
    Alike limit (nested m) (nested m') := by
  intro w hw
  unfold Emit.nested
  cases hinner : w.enter with
  | error e => exact ⟨rfl, rfl, rfl⟩
  | ok inner =>
    have hoptions : inner.options = w.options := by rw [← Writer.leave_of_enter hinner]; rfl
    obtain ⟨hout, hafter, hkept⟩ := h inner (by rw [hoptions, hw])
    exact ⟨hout, congrArg Writer.leave hafter, hkept.trans hoptions⟩

theorem alike_forM {α : Type} {f : α → Emit Unit} (hf : ∀ x, Alike limit (f x) (f x))
    (xs : List α) : Alike limit (xs.forM f) (xs.forM f) := by
  induction xs with
  | nil => exact alike_pure ()
  | cons x rest ih => exact (hf x).bind fun _ => ih

end

end Emit

/-! ## Statements -/

namespace Arena

section

variable {a b : Arena} {limit : Nat}

/-- What rendering an expression comes to. -/
def result (a : Arena) (limit : Nat) (id : NodeId) : Except RenderError String :=
  outcome (a.renderExpr id limit)

theorem exprText_alike {id id' : NodeId} (h : a.result limit id = b.result limit id') :
    Emit.Alike limit (a.exprText id) (b.exprText id') := by
  rintro w rfl
  exact ⟨h, rfl, rfl⟩

theorem branchHeader_alike (first : Bool) {cond cond' : Option NodeId}
    (h : cond.map (a.result limit) = cond'.map (b.result limit)) :
    Emit.Alike limit (a.branchHeader first cond) (b.branchHeader first cond') := by
  match first, cond, cond', h with
  | true, none, none, _ => exact Emit.alike_throw _
  | false, none, none, _ => exact Emit.alike_pure _
  | true, some c, some c', h | false, some c, some c', h =>
    exact (exprText_alike (Option.some.inj h)).bind fun _ => Emit.alike_pure _

theorem reportIf_alike (cause : Bool) (d : Diagnostic) {m m' : Emit Unit}
    (h : Emit.Alike limit m m') :
    Emit.Alike limit (if cause then Emit.report d >>= fun _ => m else m)
      (if cause then Emit.report d >>= fun _ => m' else m') := by
  split_ifs
  · exact (Emit.alike_report d).bind fun _ => h
  · exact h

theorem writeBlock_alike (construct : Construct) {body body' : List Stmt} {m m' : Emit Unit}
    (hempty : body.isEmpty = body'.isEmpty) (h : Emit.Alike limit m m') :
    Emit.Alike limit (writeBlock construct body m) (writeBlock construct body' m') := by
  unfold writeBlock
  rw [hempty]
  exact reportIf_alike _ _ h.nested

/-- A switch is written alike if what is inside it is. -/
theorem inSwitch_alike (misuse : Bool) {subject subject' : NodeId}
    (hsubject : a.result limit subject = b.result limit subject') {m m' : Emit Unit}
    (h : Emit.Alike limit m m') :
    Emit.Alike limit
      (do
        if misuse then Emit.report .emptySwitch
        Emit.line ("switch ( " ++ (← a.exprText subject) ++ " ) \x7b")
        Emit.nested m
        Emit.line "\x7d")
      (do
        if misuse then Emit.report .emptySwitch
        Emit.line ("switch ( " ++ (← b.exprText subject') ++ " ) \x7b")
        Emit.nested m'
        Emit.line "\x7d") :=
  reportIf_alike _ _ ((exprText_alike hsubject).bind fun _ => (Emit.alike_line _).bind fun _ =>
    h.nested.bind fun _ => Emit.alike_line _)

-- The induction is on the first statement. The second one has the same constructor, since outlines
-- of different constructors differ.
mutual

theorem writeStmt_alike : ∀ s t : Stmt, s.outline (a.result limit) = t.outline (b.result limit) →
    Emit.Alike limit (a.writeStmt s) (b.writeStmt t)
  | .expr id, t, h => by
    cases t with
    | expr id' => exact (exprText_alike (Outline.expr.inj h)).bind fun _ => Emit.alike_line _
    | switch _ _ default => cases default <;> cases h
    | _ => cases h
  | .comment text, t, h => by
    cases t with
    | comment text' =>
      obtain rfl := Outline.comment.inj h
      exact Emit.alike_forM Emit.alike_line _
    | switch _ _ default => cases default <;> cases h
    | _ => cases h
  | .includeFile path, t, h => by
    cases t with
    | includeFile path' =>
      obtain rfl := Outline.includeFile.inj h
      exact Emit.alike_line _
    | switch _ _ default => cases default <;> cases h
    | _ => cases h
  | .forLoop init cond step body, t, h => by
    cases t with
    | forLoop init' cond' step' body' =>
      obtain ⟨hinit, hcond, hstep, hbody⟩ := Outline.forLoop.inj h
      refine (exprText_alike hinit).bind fun _ => (exprText_alike hcond).bind fun _ =>
        (exprText_alike hstep).bind fun _ => (Emit.alike_line _).bind fun _ => ?_
      refine (writeBlock_alike _ (Stmt.isEmpty_of_outlineAll hbody) ?_).bind
        fun _ => Emit.alike_line _
      exact writeAll_alike body body' hbody
    | switch _ _ default => cases default <;> cases h
    | _ => cases h
  | .whileLoop cond body, t, h => by
    cases t with
    | whileLoop cond' body' =>
      obtain ⟨hcond, hbody⟩ := Outline.whileLoop.inj h
      refine (exprText_alike hcond).bind fun _ => (Emit.alike_line _).bind fun _ => ?_
      refine (writeBlock_alike _ (Stmt.isEmpty_of_outlineAll hbody) ?_).bind
        fun _ => Emit.alike_line _
      exact writeAll_alike body body' hbody
    | switch _ _ default => cases default <;> cases h
    | _ => cases h
  | .ifChain arms, t, h => by
    cases t with
    | ifChain arms' =>
      have harms := Outline.ifChain.inj h
      have hbranches := writeBranches_alike true arms arms' harms
      simp only [writeStmt, Branch.isEmpty_of_outlineAll harms,
        elseDiagnostics_congr (Branch.isNone_cond_of_outlineAll harms)]
      split_ifs
      · exact Emit.alike_report _
      · exact (Emit.alike_forM Emit.alike_report _).bind fun _ => hbranches.bind
          fun _ => Emit.alike_line _
    | switch _ _ default => cases default <;> cases h
    | _ => cases h
  | .switch subject cases none, t, h => by
    match t with
    | .switch subject' cases' none =>
      obtain ⟨hsubject, hcases, -⟩ := Outline.switch.inj h
      have harms := writeCases_alike cases cases' hcases
      simp only [writeStmt, SwitchCase.isEmpty_of_outlineAll hcases]
      exact inSwitch_alike _ hsubject (harms.bind fun _ => Emit.alike_pure ())
    | .switch subject' cases' (some body') => simp [Stmt.outline] at h
    | .expr _ | .comment _ | .includeFile _ | .forLoop .. | .whileLoop .. | .ifChain _
    | .function .. => cases h
  | .switch subject cases (some body), t, h => by
    match t with
    | .switch subject' cases' (some body') =>
      obtain ⟨hsubject, hcases, hdefault⟩ := Outline.switch.inj h
      have hbody := Option.some.inj hdefault
      have harms := writeCases_alike cases cases' hcases
      have hdefault := writeBlock_alike .defaultArm (Stmt.isEmpty_of_outlineAll hbody)
        (writeAll_alike body body' hbody)
      simp only [writeStmt, SwitchCase.isEmpty_of_outlineAll hcases]
      exact inSwitch_alike _ hsubject (harms.bind fun _ => (Emit.alike_line _).bind fun _ =>
        hdefault.bind fun _ => Emit.alike_line _)
    | .switch subject' cases' none => simp [Stmt.outline] at h
    | .expr _ | .comment _ | .includeFile _ | .forLoop .. | .whileLoop .. | .ifChain _
    | .function .. => cases h
  | .function signature params body, t, h => by
    cases t with
    | function signature' params' body' =>
      obtain ⟨hheader, hbody⟩ := Outline.function.inj h
      simp only [writeStmt, hheader]
      refine (Emit.alike_line _).bind fun _ => ?_
      refine (writeBlock_alike _ (Stmt.isEmpty_of_outlineAll hbody) ?_).bind
        fun _ => Emit.alike_line _
      exact writeAll_alike body body' hbody
    | switch _ _ default => cases default <;> cases h
    | _ => cases h
termination_by structural s => s

theorem writeAll_alike : ∀ ss ts : List Stmt,
    Stmt.outlineAll (a.result limit) ss = Stmt.outlineAll (b.result limit) ts →
      Emit.Alike limit (a.writeAll ss) (b.writeAll ts)
  | [], ts, h => by
    cases ts with
    | nil => exact Emit.alike_pure ()
    | cons t rest => simp [Stmt.outlineAll] at h
  | s :: rest, ts, h => by
    cases ts with
    | nil => simp [Stmt.outlineAll] at h
    | cons t rest' =>
      obtain ⟨hs, hrest⟩ := List.cons.inj h
      exact (writeStmt_alike s t hs).bind fun _ => writeAll_alike rest rest' hrest
termination_by structural ss => ss

theorem writeBranches_alike : ∀ (first : Bool) (arms arms' : List Branch),
    Branch.outlineAll (a.result limit) arms = Branch.outlineAll (b.result limit) arms' →
      Emit.Alike limit (a.writeBranches first arms) (b.writeBranches first arms')
  | first, [], arms', h => by
    cases arms' with
    | nil => exact Emit.alike_pure ()
    | cons arm rest =>
      obtain ⟨_, _⟩ := arm
      cases h
  | first, ⟨cond, body⟩ :: rest, arms', h => by
    cases arms' with
    | nil => simp [Branch.outlineAll] at h
    | cons arm rest' =>
      obtain ⟨cond', body'⟩ := arm
      obtain ⟨harm, hrest⟩ := List.cons.inj h
      obtain ⟨hcond, hbody⟩ := Outline.Arm.mk.inj harm
      refine (branchHeader_alike first hcond).bind fun _ => (Emit.alike_line _).bind fun _ => ?_
      refine (writeBlock_alike _ (Stmt.isEmpty_of_outlineAll hbody) ?_).bind
        fun _ => writeBranches_alike false rest rest' hrest
      exact writeAll_alike body body' hbody
termination_by structural _ arms => arms

theorem writeCases_alike : ∀ cases cases' : List SwitchCase,
    SwitchCase.outlineAll (a.result limit) cases = SwitchCase.outlineAll (b.result limit) cases' →
      Emit.Alike limit (a.writeCases cases) (b.writeCases cases')
  | [], cases', h => by
    cases cases' with
    | nil => exact Emit.alike_pure ()
    | cons arm rest =>
      obtain ⟨_, _⟩ := arm
      cases h
  | ⟨value, body⟩ :: rest, cases', h => by
    cases cases' with
    | nil => simp [SwitchCase.outlineAll] at h
    | cons arm rest' =>
      obtain ⟨value', body'⟩ := arm
      obtain ⟨harm, hrest⟩ := List.cons.inj h
      obtain ⟨hvalue, hbody⟩ := Outline.Case.mk.inj harm
      refine (exprText_alike hvalue).bind fun _ => (Emit.alike_line _).bind fun _ => ?_
      refine (writeBlock_alike _ (Stmt.isEmpty_of_outlineAll hbody) ?_).bind
        fun _ => (Emit.alike_line _).bind fun _ => writeCases_alike rest rest' hrest
      exact writeAll_alike body body' hbody
termination_by structural cases => cases

end

/-- Statements with one outline over the outcomes of their expressions are rendered alike. -/
theorem outcome_render_congr {ss ts : List Stmt} {options : RenderOptions}
    (h : Stmt.outlineAll (a.result options.maxDepth) ss =
      Stmt.outlineAll (b.result options.maxDepth) ts) :
    outcome (a.render ss options) = outcome (b.render ts options) := by
  obtain ⟨hout, hafter, -⟩ := writeAll_alike ss ts h (Writer.new options) rfl
  unfold render
  obtain ⟨r, w, hm⟩ : ∃ r w, a.writeAll ss (Writer.new options) = (r, w) := ⟨_, _, rfl⟩
  obtain ⟨r', w', hm'⟩ : ∃ r' w', b.writeAll ts (Writer.new options) = (r', w') := ⟨_, _, rfl⟩
  rw [hm, hm'] at hout hafter
  obtain rfl : w = w' := hafter
  rw [hm, hm']
  cases r <;> cases r' <;> simp_all

/-- In sound arenas it is enough that the expressions stand for the same terms. -/
theorem Sound.outcome_render_congr (ha : a.Sound) (hb : b.Sound) {ss ts : List Stmt}
    (hss : ∀ id ∈ Stmt.rootsAll ss, id.index < a.size)
    (hts : ∀ id ∈ Stmt.rootsAll ts, id.index < b.size)
    (h : Stmt.outlineAll a.term ss = Stmt.outlineAll b.term ts) (options : RenderOptions) :
    outcome (a.render ss options) = outcome (b.render ts options) := by
  let text (t : Term) := outcome (t.render options.maxDepth (options.maxDepth + 1))
  apply Arena.outcome_render_congr
  calc Stmt.outlineAll (a.result options.maxDepth) ss
      = Outline.mapAll text (Stmt.outlineAll a.term ss) := by
        rw [Stmt.mapAll_outlineAll]
        exact Stmt.outlineAll_congr ss fun id hid => ha.renderExpr_eq (hss id hid) _
    _ = Outline.mapAll text (Stmt.outlineAll b.term ts) := by rw [h]
    _ = Stmt.outlineAll (b.result options.maxDepth) ts := by
        rw [Stmt.mapAll_outlineAll]
        exact Stmt.outlineAll_congr ts fun id hid => (hb.renderExpr_eq (hts id hid) _).symm

end

end Arena

end KernelForge

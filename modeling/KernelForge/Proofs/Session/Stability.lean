import KernelForge.Proofs.Render.Frame
import KernelForge.Proofs.Session.Soundness
import KernelForge.Proofs.Session.TermCopy
import Mathlib.Logic.Function.Basic

/-!
# Handles are stable

What a handle stands for stays what it is whatever is built, taken in or refused later, in its own
context or in others. The one thing that changes it is an update of a variable at or below it. Such
an update writes one node, and each expression over that node is rendered as what it was with
another variable in the place of the old one.
-/
namespace KernelForge

namespace Session

section

variable {s : Session} {h : Handle} {v w : Variable}

/-- A node that holds a variable is there. -/
theorem holds_of_content? (hv : s.content? h = some v) : s.Holds h.context [h.node] := by
  have hnode := Arena.lt_of_get? (Arena.content?_eq_some_iff.mp hv)
  refine holds_singleton.mpr ⟨?_, hnode⟩
  by_contra hc
  have hempty : s.context h.context = .new "" := by
    simp [context, Array.getElem?_eq_none (Nat.le_of_not_lt hc)]
  rw [hempty] at hnode
  exact Nat.not_lt_zero _ hnode

/-- What an update leaves behind. One node holds the new variable. All else is as it was: the other
contexts, the other nodes, the list storage and the table. Each expression is rendered as its tree
with the new variable in the place of the old one. -/
structure Updated (s t : Session) (h : Handle) (w : Variable) : Prop where
  role : t.role = s.role
  count : t.contexts.size = s.contexts.size
  others : ∀ c, c ≠ h.context → t.context c = s.context c
  provenance : (t.context h.context).provenance = (s.context h.context).provenance
  symbols : (t.context h.context).symbols = (s.context h.context).symbols
  arguments : (t.context h.context).arena.arguments = (s.context h.context).arena.arguments
  written : (t.context h.context).arena.get? h.node = some (.leaf w)
  nodes : ∀ id, id ≠ h.node →
    (t.context h.context).arena.get? id = (s.context h.context).arena.get? id
  failures : ∀ root limit e, (t.context h.context).arena.renderExpr root limit = .error e ↔
    (s.context h.context).arena.renderExpr root limit = .error e
  texts : ∀ root limit text, (s.context h.context).arena.renderExpr root limit = .ok text →
    let a := (s.context h.context).arena
    ∃ tree tree', a.Unfolds root tree ∧ tree.text = text ∧
      a.treeWith a.content? root = some tree ∧
      a.treeWith (Function.update a.content? h.node (some w)) root = some tree' ∧
      (t.context h.context).arena.renderExpr root limit = .ok tree'.text

theorem updated_overwrite (hv : s.content? h = some v) (hn : v.name?.isSome)
    (hw : w.name?.isSome) : s.Updated (s.overwrite h w) h w := by
  have hcontext := context_overwrite (w := w) (holds_of_content? hv)
  have hself : (s.overwrite h w).context h.context = { s.context h.context with
      arena := (s.context h.context).arena.overwrite h.node (.leaf w) } := by
    rw [hcontext, if_pos rfl]
  have hlt := (holds_singleton.mp (holds_of_content? hv)).2
  have hcontent : ((s.context h.context).arena.overwrite h.node (.leaf w)).content? =
      Function.update (s.context h.context).arena.content? h.node (some w) := by
    funext id
    rw [Arena.content?_overwrite id w hv, Function.update_apply]
    simp only [eq_comm]
  -- named variables can be declared, the old one and the new one
  have hrefills := Arena.refills_overwrite (w := w) hv (by
    rw [Variable.declaration?_isSome_of_name? hn, Variable.declaration?_isSome_of_name? hw])
  constructor
  case role => rfl
  case count => exact size_replace ..
  case others =>
    intro c hc
    rw [hcontext, if_neg hc.symm]
  case provenance | symbols => rw [hself]
  case arguments =>
    rw [hself]
    rfl
  case written => rw [hself, Arena.get?_overwrite, if_pos rfl, if_pos hlt]
  case nodes =>
    intro id hid
    rw [hself, Arena.get?_overwrite, if_neg]
    intro heq
    exact hid (NodeId.eq_of_index_eq heq).symm
  case failures =>
    intro root limit e
    rw [hself]
    exact (hrefills.renderExpr root limit).1 e
  case texts =>
    intro root limit text htext a
    rw [hself, ← hcontent]
    exact (hrefills.renderExpr root limit).2 text htext

end

end Session

namespace Workspace

variable {w : Workspace}

/-- The action is an update that has an effect, and the variable is at or below the handle. -/
def UpdatesBelow (w : Workspace) (h : Handle) : Action → Prop
  | .update c a change => ∃ g, w.handle? a = some g ∧ g.context = h.context ∧
      (w.session.context h.context).arena.Reaches h.node g.node ∧
      (Session.modifyVariable c g change w.session).1 = .ok ()
  | _ => False

theorem handle?_step {label : Nat} {h : Handle} (hl : w.handle? label = some h) (action : Action) :
    (w.step action).handle? label = some h := by
  obtain ⟨answer, hanswer⟩ := answers_step w action
  unfold handle? at hl ⊢
  split at hl
  · rename_i a ha
    have hlt := (List.getElem?_eq_some_iff.mp ha).1
    rw [hanswer, List.getElem?_append_left hlt, ha]
    exact hl
  · cases hl

/-- An action that does not update a variable at or below a node keeps all that is there. -/
theorem step_keeps (hw : w.Valid) {h : Handle} (hh : w.session.Holds h.context [h.node])
    {action : Action} (hno : ¬ w.UpdatesBelow h action) :
    (w.session.context h.context).arena.Keeps
      ((w.step action).session.context h.context).arena h.node := by
  by_cases hupdate : ∃ c a change, action = .update c a change
  · obtain ⟨c, a, change, rfl⟩ := hupdate
    rcases w.step_update c a change with heq | ⟨g, hg, heq⟩
    · rw [heq]
      exact .refl _ _
    · by_cases hp : w.session.Permits c g change
      · obtain ⟨v, -, -, -, hrun⟩ := Session.modifyVariable_of_permits hp
        rw [heq, hrun, Session.context_overwrite (handle?_holds hw hg)]
        split_ifs with hcontext
        · -- the variable is in the context of the handle, but not below it
          have hapart : ¬ (w.session.context h.context).arena.Reaches h.node g.node := fun hreach =>
            hno ⟨g, hg, hcontext, hreach, Session.modifyVariable_eq_ok_iff.mpr hp⟩
          rw [hcontext]
          exact Arena.keeps_overwrite hapart _
        · exact .refl _ _
      · rw [heq, Session.modifyVariable_of_not_permits hp]
        exact .refl _ _
  · rcases step_cases hw action with ⟨-, -, hgrows, -⟩ | ⟨c, a, change, -, -, rfl, -⟩
    · exact (hw.sound h.context).arena.keeps_of_extends (Session.holds_singleton.mp hh).2
        (hgrows.context h.context).extends.arena
    · exact absurd ⟨c, a, change, rfl⟩ hupdate

theorem run_keeps (hw : w.Valid) {label : Nat} {h : Handle} (hl : w.handle? label = some h)
    {more : List Action} (hno : ∀ before action after, more = before ++ action :: after →
      ¬ (w.run before).UpdatesBelow h action) :
    (w.session.context h.context).arena.Keeps
      ((w.run more).session.context h.context).arena h.node := by
  induction more generalizing w with
  | nil => exact .refl _ _
  | cons action rest ih =>
    refine (step_keeps hw (handle?_holds hw hl) (hno [] action rest rfl)).trans ?_
    refine ih (step_valid hw action) (handle?_step hl action) ?_
    rintro before other after rfl
    exact hno (action :: before) other after rfl

/-- No action changes the node of a name, not even an update. -/
theorem step_lookup (hw : w.Valid) (action : Action) {c : Nat} {name : String} {id : NodeId}
    (hl : (w.session.context c).lookup name = some id) :
    ((w.step action).session.context c).lookup name = some id := by
  rcases step_cases hw action with ⟨-, -, hgrows, -⟩ | ⟨_, _, _, h, _, -, hh, -, -, -, heq⟩
  · exact (hgrows.context c).extends.symbol name id hl
  · rw [heq, Session.context_overwrite (handle?_holds hw hh)]
    split_ifs with hc
    · rw [← hc] at hl
      exact hl
    · exact hl

theorem run_lookup (hw : w.Valid) (actions : List Action) {c : Nat} {name : String} {id : NodeId}
    (hl : (w.session.context c).lookup name = some id) :
    ((w.run actions).session.context c).lookup name = some id := by
  induction actions generalizing w with
  | nil => exact hl
  | cons action rest ih => exact ih (step_valid hw action) (step_lookup hw action hl)

/-- After any actions, and whatever is done next in any context, a handle has the same node, the same
variable and the same text or error within each limit, unless an update succeeds on a variable at or
below it, and a name keeps its node in any case. An update is refused with the session as it was if
the handle is of another context or is no named variable, or would cease to be one. Otherwise it
writes one node, and each expression of the context is rendered as its tree with the new variable in
the place of the old one. -/
theorem run_stable (role : Role) (provenances : List String) (actions : List Action) :
    let w := (new role provenances).run actions
    (∀ label h more, w.handle? label = some h →
      (∀ before action after, more = before ++ action :: after →
        ¬ (w.run before).UpdatesBelow h action) →
      let a := (w.session.context h.context).arena
      let b := ((w.run more).session.context h.context).arena
      b.get? h.node = a.get? h.node ∧ b.content? h.node = a.content? h.node ∧
        ∀ limit, b.renderExpr h.node limit = a.renderExpr h.node limit) ∧
    (∀ more c name id, (w.session.context c).lookup name = some id →
      ((w.run more).session.context c).lookup name = some id) ∧
    ∀ c h change,
      ((Session.modifyVariable c h change w.session).1 = .ok () ↔
        h.context = c ∧ ∃ v, w.session.content? h = some v ∧ v.name?.isSome ∧
          (change v).name?.isSome) ∧
      (∀ e, (Session.modifyVariable c h change w.session).1 = .error e →
        e = (if h.context = c then .notAVariable h.node else .foreignHandle h.node) ∧
        (Session.modifyVariable c h change w.session).2 = w.session) ∧
      ((Session.modifyVariable c h change w.session).1 = .ok () →
        ∃ v, w.session.content? h = some v ∧
          w.session.Updated (Session.modifyVariable c h change w.session).2 h (change v)) := by
  intro w
  have hw : w.Valid := run_valid (valid_new role provenances) actions
  refine ⟨?_, ?_, ?_⟩
  · intro label h more hl hno a b
    have hkeeps : a.Keeps b h.node := run_keeps hw hl hno
    have hnode := hkeeps.node h.node .refl
    exact ⟨hnode, by rw [Arena.content?, Arena.content?, hnode], hkeeps.renderExpr_eq⟩
  · exact fun more c name id hl => run_lookup hw more hl
  · intro c h change
    refine ⟨Session.modifyVariable_eq_ok_iff, fun e he => ?_, fun hok => ?_⟩
    · have hp : ¬ w.session.Permits c h change := fun hp => by
        rw [Session.modifyVariable_eq_ok_iff.mpr hp] at he
        cases he
      rw [Session.modifyVariable_of_not_permits hp] at he ⊢
      exact ⟨(Except.error.inj he).symm, rfl⟩
    · obtain ⟨v, hv, hn, hn', heq⟩ :=
        Session.modifyVariable_of_permits (Session.modifyVariable_eq_ok_iff.mp hok)
      rw [heq]
      exact ⟨v, hv, Session.updated_overwrite hv hn hn'⟩

/-- A sum keeps its text while another variable of its context is renamed. -/
theorem run_stable_sum :
    let w := (new .crisc ["a"]).run
      [.intern 0 "x" (.scalar .i32), .binary .add 0 (.answer 0), .intern 0 "y" (.scalar .i32)]
    let rename : Action := .update 0 2 fun _ => .scalar .i32 "z"
    w.handle? 1 = some ⟨0, ⟨1⟩⟩ ∧ ¬ w.UpdatesBelow ⟨0, ⟨1⟩⟩ rename ∧
      ((w.run [rename]).session.context 0).arena.content? ⟨2⟩ = some (.scalar .i32 "z") ∧
      ((w.run [rename]).session.context 0).arena.renderExpr ⟨1⟩ 1 = .ok "x + x" := by
  intro w rename
  have hl : w.handle? 1 = some ⟨0, ⟨1⟩⟩ := rfl
  have hapart : ¬ w.UpdatesBelow ⟨0, ⟨1⟩⟩ rename := by
    rintro ⟨g, hg, -, hreach, -⟩
    obtain rfl : (⟨0, ⟨2⟩⟩ : Handle) = g := Option.some.inj hg
    have hw : w.Valid := run_valid (valid_new _ _) _
    have hle := (hw.sound 0).arena.reaches_le hreach
    exact absurd hle (by decide)
  have hstable := (run_stable .crisc ["a"] [.intern 0 "x" (.scalar .i32),
    .binary .add 0 (.answer 0), .intern 0 "y" (.scalar .i32)]).1 1 ⟨0, ⟨1⟩⟩ [rename] hl (by
      rintro before action after hsplit
      cases before with
      | nil =>
        obtain ⟨rfl, -⟩ := List.cons.inj hsplit
        exact hapart
      | cons => simp at hsplit)
  exact ⟨hl, hapart, rfl, (hstable.2.2 1).trans rfl⟩

end Workspace

end KernelForge

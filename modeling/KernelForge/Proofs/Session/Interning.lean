import KernelForge.Proofs.Session.Entries
import KernelForge.Proofs.Session.Stability

/-!
# Names are permanent

A name that a table has once leads to the same node for ever: through whatever is built, taken in or
updated later, and whichever way the name is asked for. A request by name always has an answer, and
one that is refused does nothing.
-/
namespace KernelForge

namespace Session

/-- The name leads to one node of the context, whatever is asked for: it is found there, `intern`
answers with it and does nothing, `tryIntern` answers with it or refuses, and each variable so named
below what is taken in from another context becomes it. -/
structure Interned (s : Session) (c : Nat) (name : String) (id : NodeId) : Prop where
  lookup : s.lookup c name = some ⟨c, id⟩
  intern : ∀ shape, intern c name shape s = (⟨c, id⟩, s)
  tryIntern : ∀ shape h, (tryIntern c name shape s).1 = .ok h → h = ⟨c, id⟩
  attach : ∀ h : Handle, s.HoldsOperand (.handle h) → h.context ≠ c →
    ∃ image, (attach c (.handle h) s).1 = image h.node ∧
      s.CopiesOnce (Session.attach c (.handle h) s).2 h.context c [h.node] image ∧
      ∀ i, (s.context h.context).arena.Below [h.node] i →
        (s.context h.context).arena.HasName i name → image i = id
  adopt : ∀ origin stmt, s.HoldsStatement ⟨some origin, stmt⟩ → origin ≠ c →
    ∃ image, (adopt c ⟨some origin, stmt⟩ s).1 = stmt.mapRoots image ∧
      s.CopiesOnce (Session.adopt c ⟨some origin, stmt⟩ s).2 origin c stmt.roots image ∧
      ∀ i, (s.context origin).arena.Below stmt.roots i →
        (s.context origin).arena.HasName i name → image i = id

/-- What it does to ask for a variable. `intern` answers with the node that the table has under the
name from then on. It appends that node if the name is new, and does nothing otherwise. `tryIntern`
does the same, or refuses and does nothing. To `intern` is to ask `tryIntern` and, where that refuses,
the table, which then has the name. -/
structure Asks (s : Session) (c : Nat) (name : String) (shape : Shape) : Prop where
  found : (intern c name shape s).2.lookup c name = some (intern c name shape s).1
  named : ∃ v, (intern c name shape s).2.content? (intern c name shape s).1 = some v ∧
    v.name?.isSome
  /-- No more nodes fit into an arena than there are valid ids. -/
  valid : ((intern c name shape s).2.context c).arena.size ≤ NodeId.invalid.index →
    (intern c name shape s).1.node ≠ .invalid
  others : ∀ d, d ≠ c → (intern c name shape s).2.context d = s.context d
  known : s.Knows c name → (intern c name shape s).2 = s
  new : ¬ s.Knows c name →
    ((intern c name shape s).2.context c).arena.size = (s.context c).arena.size + 1
  granted : ∀ h, (tryIntern c name shape s).1 = .ok h →
    tryIntern c name shape s = (.ok (intern c name shape s).1, (intern c name shape s).2)
  refused : ∀ e, (tryIntern c name shape s).1 = .error e → (tryIntern c name shape s).2 = s ∧
    s.lookup c name = some (intern c name shape s).1
  fallback : intern c name shape s = match tryIntern c name shape s with
    | (.ok h, t) => (h, t)
    | (.error _, t) => ((t.lookup c name).getD ⟨c, .invalid⟩, t)
  finds : ∀ id, (tryIntern c name shape s).1 ≠ .error (.notAVariable id)

section

variable {s : Session} {c : Nat} {name : String} {id : NodeId}

theorem CopiesOnce.image_eq {t : Session} {origin : Nat} {roots : List NodeId}
    {image : NodeId → NodeId} (h : s.CopiesOnce t origin c roots image)
    (hl : (s.context c).lookup name = some id) {i : NodeId}
    (hi : (s.context origin).arena.Below roots i) (hn : (s.context origin).arena.HasName i name) :
    image i = id :=
  Option.some.inj ((h.named i name hi hn).symm.trans (h.keeps.symbol name id hl))

theorem intern_apply (c : Nat) (name : String) (shape : Shape) (s : Session) :
    intern c name shape s = (⟨c, ((s.context c).intern name shape).1⟩,
      s.replace c ((s.context c).intern name shape).2) := by
  simp only [intern, bind_apply, pure_apply, onContext_apply]

theorem tryIntern_apply (c : Nat) (name : String) (shape : Shape) (s : Session) :
    tryIntern c name shape s = (((s.context c).tryIntern name shape).1.map (Handle.mk c),
      s.replace c ((s.context c).tryIntern name shape).2) := by
  simp only [tryIntern, bind_apply, pure_apply, onContext_apply]

/-- A request is granted as `intern` answers it, or refused because the name has another variable. -/
theorem tryIntern_cases (hs : s.Sound) (c : Nat) (name : String) (shape : Shape) :
    tryIntern c name shape s = (.ok (intern c name shape s).1, (intern c name shape s).2) ∨
    ∃ id v, (s.context c).lookup name = some id ∧ s.content? ⟨c, id⟩ = some v ∧
      v ≠ shape.named name ∧
      tryIntern c name shape s = (.error (.shapeMismatch name v (shape.named name)), s) := by
  rw [tryIntern_apply, intern_apply]
  rcases Context.tryIntern_cases (hs c) name shape with heq | ⟨id, v, hl, hv, hne, heq⟩
  · exact Or.inl (by rw [heq]; rfl)
  · refine Or.inr ⟨id, v, hl, hv, hne, ?_⟩
    rw [heq, replace_context]
    rfl

theorem interned_of_lookup (hs : s.Sound) (hc : c < s.contexts.size)
    (hl : (s.context c).lookup name = some id) : s.Interned c name id := by
  have hintern : ∀ shape, intern c name shape s = (⟨c, id⟩, s) := by
    intro shape
    rw [intern_apply, Context.intern_of_lookup hl, replace_context]
  constructor
  · rw [Session.lookup, hl, Option.map_some]
  · exact hintern
  · intro shape h hh
    rcases tryIntern_cases hs c name shape with heq | ⟨_, _, _, _, _, heq⟩
    · rw [heq, hintern] at hh
      exact (Except.ok.inj hh).symm
    · simp [heq] at hh
  · intro h hh hne
    obtain ⟨image, himage, hcopies⟩ := attach_copiesOnce hs hc hh hne
    exact ⟨image, himage, hcopies, fun i hi hn => hcopies.image_eq hl hi hn⟩
  · intro origin stmt hst hne
    obtain ⟨image, himage, hcopies⟩ := adopt_copiesOnce hs hc hst hne
    exact ⟨image, himage, hcopies, fun i hi hn => hcopies.image_eq hl hi hn⟩

theorem asks (hs : s.Sound) (hc : c < s.contexts.size) (name : String) (shape : Shape) :
    s.Asks c name shape := by
  have hcontext : (intern c name shape s).2.context c = ((s.context c).intern name shape).2 := by
    rw [intern_apply, context_replace hc, if_pos rfl]
  obtain ⟨hgrows, hlookup⟩ := (s.context c).intern_grows name shape
  obtain ⟨v, hv, hn⟩ := (hgrows.sound (hs c)).symbol _ _ hlookup
  constructor
  case found =>
    rw [Session.lookup, hcontext, hlookup, intern_apply]
    rfl
  case named =>
    refine ⟨v, ?_, hn⟩
    rw [content?, intern_apply, context_replace hc, if_pos rfl]
    exact hv
  case valid =>
    intro hsize hinvalid
    have hlt := (hgrows.sound (hs c)).lookup_lt hlookup
    rw [hcontext] at hsize
    rw [intern_apply] at hinvalid
    simp only at hinvalid
    rw [hinvalid] at hlt
    omega
  case others =>
    intro d hd
    rw [intern_apply, context_replace hc, if_neg hd.symm]
  case known =>
    intro hknows
    obtain ⟨id, hl⟩ := Option.isSome_iff_exists.mp hknows
    rw [intern_apply, Context.intern_of_lookup hl, replace_context]
  case new =>
    intro hnew
    have hl : (s.context c).lookup name = none := by simpa [Knows] using hnew
    rw [hcontext, Context.intern_of_new hl, Context.size_enter]
  case granted =>
    intro h hh
    rcases tryIntern_cases hs c name shape with heq | ⟨_, _, _, _, _, heq⟩
    · exact heq
    · simp [heq] at hh
  case refused =>
    intro e he
    rcases tryIntern_cases hs c name shape with heq | ⟨id, _, hl, _, _, heq⟩
    · simp [heq] at he
    · have hname := interned_of_lookup hs hc hl
      rw [heq, hname.intern]
      exact ⟨rfl, hname.lookup⟩
  case fallback =>
    rcases tryIntern_cases hs c name shape with heq | ⟨id, _, hl, _, _, heq⟩
    · rw [heq]
      rfl
    · have hname := interned_of_lookup hs hc hl
      rw [heq, hname.intern]
      simp only [hname.lookup, Option.getD_some]
  case finds =>
    intro id he
    rcases tryIntern_cases hs c name shape with heq | ⟨_, _, _, _, _, heq⟩
    · simp [heq] at he
    · simp [heq] at he

/-- Where a name is known there is a context. -/
theorem Knows.lt (h : s.Knows c name) : c < s.contexts.size := by
  by_contra hc
  have hempty : s.context c = .new "" := by
    simp [context, Array.getElem?_eq_none (Nat.le_of_not_lt hc)]
  have hnone : (Context.new "").lookup name = none := rfl
  simp [Knows, hempty, hnone] at h

end

end Session

namespace Workspace

/-- After any actions a table lists the names that they have entered, in ascending order. Each of
them leads to one node from then on, through any further actions, updates among them. And whenever a
variable is asked for by name, there is an answer. -/
theorem run_interns (role : Role) (provenances : List String) (actions : List Action) :
    let w := (new role provenances).run actions
    (∀ c, (w.session.context c).names.Pairwise (· < ·) ∧
      (w.session.context c).symbols.size = (w.session.context c).names.length ∧
      ∀ name, name ∈ (w.session.context c).names ↔
        ∃ before action after, actions = before ++ action :: after ∧
          ((new role provenances).run before).Enters c name action) ∧
    (∀ c name, name ∈ (w.session.context c).names →
      ∃ id, ∀ more s, (w.run more).session.Grows s → s.Interned c name id) ∧
    ∀ s, w.session.Grows s → ∀ c, c < s.contexts.size → ∀ name shape, s.Asks c name shape := by
  intro w
  have hnew := valid_new role provenances
  have hw : w.Valid := run_valid hnew actions
  refine ⟨fun c => ⟨Context.pairwise_names _, (Context.length_names _).symm, fun name => ?_⟩, ?_, ?_⟩
  · have hknows := run_knows hnew actions c name
    simp only [not_knows_new, false_or] at hknows
    exact Context.mem_names.trans hknows
  · intro c name hname
    have hknows : w.session.Knows c name := Context.mem_names.mp hname
    obtain ⟨id, hl⟩ := Option.isSome_iff_exists.mp hknows
    refine ⟨id, fun more s hgrows => ?_⟩
    have hs := hgrows.sound (run_valid hw more).sound
    have hlater := (hgrows.context c).extends.symbol name id (run_lookup hw more hl)
    have hc : s.Knows c name := by simp [Session.Knows, hlater]
    exact Session.interned_of_lookup hs hc.lt hlater
  · intro s hgrows c hc name shape
    exact Session.asks (hgrows.sound hw.sound) hc name shape

end Workspace

end KernelForge

import KernelForge.Proofs.Session.StatementCopy
import KernelForge.Session.Basic

/-!
# Builds

Every operation but an update lets the contexts of its session grow and answers with nodes that are
there. `Yields` says this of a build. Its rules follow the way in which builds are put together.
-/
namespace KernelForge

namespace Session

def Sound (s : Session) : Prop := ∀ c, (s.context c).Sound

/-- No context changes otherwise than by growing. -/
structure Grows (s t : Session) : Prop where
  role : t.role = s.role
  count : t.contexts.size = s.contexts.size
  context : ∀ c, (s.context c).Grows (t.context c)

theorem Grows.refl (s : Session) : s.Grows s := ⟨rfl, rfl, fun _ => .refl _⟩

theorem Grows.trans {s t u : Session} (hst : s.Grows t) (htu : t.Grows u) : s.Grows u :=
  ⟨htu.role.trans hst.role, htu.count.trans hst.count,
    fun c => (hst.context c).trans (htu.context c)⟩

theorem Grows.sound {s t : Session} (h : s.Grows t) (hs : s.Sound) : t.Sound :=
  fun c => (h.context c).sound (hs c)

/-- The nodes are there. -/
def Holds (s : Session) (c : Nat) (ids : List NodeId) : Prop :=
  c < s.contexts.size ∧ ∀ id ∈ ids, id.index < (s.context c).arena.size

theorem Holds.mono {s t : Session} (h : s.Grows t) {c : Nat} {ids : List NodeId}
    (hids : s.Holds c ids) : t.Holds c ids := by
  have hle := (h.context c).extends.arena.size_le
  refine ⟨by rw [h.count]; exact hids.1, fun id hid => ?_⟩
  have := hids.2 id hid
  omega

theorem holds_singleton {s : Session} {c : Nat} {id : NodeId} :
    s.Holds c [id] ↔ c < s.contexts.size ∧ id.index < (s.context c).arena.size := by
  simp [Holds]

theorem holds_cons {s : Session} {c : Nat} {id : NodeId} {ids : List NodeId} :
    s.Holds c (id :: ids) ↔ s.Holds c [id] ∧ s.Holds c ids := by
  simp [Holds]
  tauto

theorem holds_append {s : Session} {c : Nat} {ids more : List NodeId} :
    s.Holds c (ids ++ more) ↔ s.Holds c ids ∧ s.Holds c more := by
  simp [Holds, or_imp, forall_and]
  tauto

def HoldsOperand (s : Session) : Operand → Prop
  | .handle h => s.Holds h.context [h.node]
  | .literal _ => True

def HoldsStatement (s : Session) (st : Statement) : Prop :=
  match st.origin with
  | none => st.stmt.roots = []
  | some c => s.Holds c st.stmt.roots

theorem HoldsOperand.mono {s t : Session} (h : s.Grows t) {o : Operand} (ho : s.HoldsOperand o) :
    t.HoldsOperand o := by
  cases o with
  | handle a => exact Holds.mono h ho
  | literal v => trivial

theorem HoldsStatement.mono {s t : Session} (h : s.Grows t) {st : Statement}
    (hst : s.HoldsStatement st) : t.HoldsStatement st := by
  obtain ⟨origin, stmt⟩ := st
  cases origin with
  | none => exact hst
  | some c => exact Holds.mono h hst

/-! ## One context at a time -/

/-- Puts another context in the place of one. -/
def replace (s : Session) (c : Nat) (ctx : Context) : Session :=
  { s with contexts := s.contexts.setIfInBounds c ctx }

@[simp] theorem size_replace (s : Session) (c : Nat) (ctx : Context) :
    (s.replace c ctx).contexts.size = s.contexts.size := by
  simp [replace]

theorem context_replace {s : Session} {c : Nat} (hc : c < s.contexts.size) (ctx : Context)
    (d : Nat) : (s.replace c ctx).context d = if c = d then ctx else s.context d := by
  unfold context replace
  rw [Array.getElem?_setIfInBounds]
  by_cases h : c = d
  · subst h
    simp [hc]
  · simp [h]

@[simp] theorem replace_replace (s : Session) (c : Nat) (ctx other : Context) :
    (s.replace c ctx).replace c other = s.replace c other := by
  simp [replace]

theorem onContext_apply {α : Type} (c : Nat) (f : Context → α × Context) (s : Session) :
    onContext c f s = ((f (s.context c)).1, s.replace c (f (s.context c)).2) := by
  simp [onContext, context, replace]

theorem grows_replace {s : Session} {c : Nat} (hc : c < s.contexts.size) {ctx : Context}
    (h : (s.context c).Grows ctx) : s.Grows (s.replace c ctx) := by
  refine ⟨rfl, s.size_replace c ctx, fun d => ?_⟩
  rw [context_replace hc]
  split_ifs with hd
  · rw [← hd]
    exact h
  · exact .refl _

/-! ## Builds -/

/-- Run in `s`, the build lets the contexts grow and ends in a session and an answer of the given
kind. -/
def Yields {α : Type} (s : Session) (m : Build α) (q : Session → α → Prop) : Prop :=
  s.Grows (m s).2 ∧ q (m s).2 (m s).1

theorem Yields.pure {α : Type} {s : Session} {q : Session → α → Prop} {a : α} (h : q s a) :
    s.Yields (pure a) q := ⟨.refl s, h⟩

theorem Yields.bind {α β : Type} {s : Session} {m : Build α} {f : α → Build β}
    {p : Session → α → Prop} {q : Session → β → Prop} (hm : s.Yields m p)
    (hf : ∀ t a, s.Grows t → p t a → t.Yields (f a) q) : s.Yields (m >>= f) q := by
  obtain ⟨hgrows, hmid⟩ := hm
  obtain ⟨hgrows', hpost⟩ := hf _ _ hgrows hmid
  exact ⟨hgrows.trans hgrows', hpost⟩

theorem Yields.map {α β : Type} {s : Session} {m : Build α} {f : α → β}
    {q : Session → β → Prop} (hm : s.Yields m fun t a => q t (f a)) :
    s.Yields (f <$> m) q := hm

theorem Yields.imp {α : Type} {s : Session} {m : Build α} {p q : Session → α → Prop}
    (hm : s.Yields m p) (h : ∀ t a, s.Grows t → p t a → q t a) : s.Yields m q :=
  ⟨hm.1, h _ _ hm.1 hm.2⟩

/-- A list of builds, each result beside what it was built from. -/
theorem Yields.forall₂_mapM {α β : Type} {s : Session} {f : α → Build β}
    {q : Session → α → β → Prop} (stays : ∀ t u a b, t.Grows u → q t a b → q u a b) {xs : List α}
    (h : ∀ x ∈ xs, ∀ t, s.Grows t → t.Yields (f x) fun u b => q u x b) :
    s.Yields (xs.mapM f) fun t bs => List.Forall₂ (q t) xs bs := by
  induction xs generalizing s with
  | nil => exact Yields.pure .nil
  | cons x rest ih =>
    rw [List.mapM_cons]
    refine (h x (by simp) s (.refl s)).bind fun t b hst hb => ?_
    refine (ih fun y hy u htu => h y (by simp [hy]) u (hst.trans htu)).bind fun u bs htu hbs => ?_
    exact Yields.pure (.cons (stays t u x b htu hb) hbs)

/-- A list of builds, the results of which stay what they are while the rest is built. -/
theorem Yields.mapM {α β : Type} {s : Session} {f : α → Build β} {q : Session → β → Prop}
    (stays : ∀ t u b, t.Grows u → q t b → q u b) {xs : List α}
    (h : ∀ x ∈ xs, ∀ t, s.Grows t → t.Yields (f x) q) :
    s.Yields (xs.mapM f) fun t bs => bs.length = xs.length ∧ ∀ b ∈ bs, q t b := by
  have hall := Yields.forall₂_mapM (q := fun t _ b => q t b) (fun t u _ b => stays t u b) h
  refine hall.imp fun t bs _ hbs => ⟨hbs.length_eq.symm, ?_⟩
  have hboth : List.Forall₂ (fun b _ => q t b ∧ True) bs xs :=
    hbs.flip.imp fun _ _ hb => ⟨hb, trivial⟩
  exact ((List.forall₂_and_left bs xs).mp hboth).1

theorem yields_onContext {α : Type} {s : Session} {c : Nat} (hc : c < s.contexts.size)
    {f : Context → α × Context} {q : Session → α → Prop}
    (hgrows : (s.context c).Grows (f (s.context c)).2)
    (hpost : ∀ t : Session, s.Grows t → t.context c = (f (s.context c)).2 →
      q t (f (s.context c)).1) : s.Yields (onContext c f) q := by
  have hg := grows_replace hc hgrows
  unfold Yields
  rw [onContext_apply]
  exact ⟨hg, hpost _ hg (by rw [context_replace hc, if_pos rfl])⟩
end Session

end KernelForge

import KernelForge.Proofs.Session.TermCopy

/-!
# Contexts that agree on names

When the contexts of a session have the same variable under each name that a program uses, it does
not matter in which of them an expression is built. A copy then stands for the very term of the
original, and the contexts go on agreeing.
-/
namespace KernelForge

/-- The names that a program uses, each with its shape, and the contexts that it works in. -/
structure Scope where
  shape? : String → Option Shape
  contexts : Nat → Prop

/-- A constant, a parameter, or the variable of one of the names. -/
def Scope.Admits (p : Scope) (v : Variable) : Prop :=
  ∀ name, v.name? = some name → ∃ shape, p.shape? name = some shape ∧ v = shape.named name

def Term.Within (p : Scope) (t : Term) : Prop :=
  t.Everywhere fun label _ => ∀ v, label = .leaf v → p.Admits v

theorem Scope.admits_of_unnamed {p : Scope} {v : Variable} (h : v.name? = none) : p.Admits v := by
  intro name hname
  simp [h] at hname

theorem Term.substitute_eq_self {σ : String → Variable} {t : Term}
    (h : t.Everywhere fun label _ => ∀ v, label = .leaf v → v.substitute σ = v) :
    t.substitute σ = t := by
  induction t using Term.induction with
  | missing => rw [substitute_missing]
  | node label ts ih =>
    rw [everywhere_node] at h
    have hlabel : label.substitute σ = label := by
      cases label with
      | leaf v => exact congrArg _ (h.1 v rfl)
      | _ => rfl
    rw [substitute_node, hlabel, List.map_congr_left fun t ht => ih t ht (h.2 t ht), List.map_id']

namespace Context

/-- Whatever the context has under one of the names is the variable that the name should have. -/
def Agrees (c : Context) (p : Scope) : Prop :=
  ∀ name shape v, p.shape? name = some shape → c.entered? name = some v → v = shape.named name

section

variable {p : Scope} {source : Arena} (hs : source.Sound) {c : Context} (hc : c.Sound)
  {roots : List NodeId} (hroots : ∀ r ∈ roots, r.index < source.size) {m : Copying}
  (hm : c.Copied source roots m) (hwithin : ∀ r ∈ roots, (source.term r).Within p)

include hs hroots hwithin in
theorem admits_of_carries {root id : NodeId} (hroot : root ∈ roots) {name : String} {v : Variable}
    (h : source.Carries root id name v) : p.Admits v :=
  (hs.everywhere_term_iff (hroots root hroot)).mp (hwithin root hroot) id _ h.reaches
    (Arena.content?_eq_some_iff.mp h.content) v rfl

include hs hc hroots hm hwithin

/-- Copying enters no other variables than those that the names should have. -/
theorem Copied.agrees (ha : c.Agrees p) : m.target.Agrees p := by
  intro name shape v hshape hv
  cases hl : c.lookup name with
  | some id =>
    obtain ⟨w, hw⟩ := Option.isSome_iff_exists.mp (hc.resolved.entered?_isSome hl)
    obtain rfl := Option.some.inj ((hm.entered?_of_entered hc hw).symm.trans hv)
    exact ha name shape w hshape hw
  | none =>
    by_cases hcarried : ∃ r ∈ roots, ∃ i w, source.Carries r i name w
    · obtain ⟨before, root, after, id, w, hsplit, hbefore, hid, hleast⟩ := exists_first hcarried
      have hw := hm.entered?_of_first hs hc hroots hl hsplit hbefore hid hleast
      obtain rfl := Option.some.inj (hw.symm.trans hv)
      obtain ⟨shape', hshape', rfl⟩ :=
        admits_of_carries hs hroots hwithin (by simp [hsplit]) hid name hid.named
      rw [Option.some.inj (hshape.symm.trans hshape')]
    · have hnone := Copying.copyAll_entered?_eq_none hs (Copying.valid_start source hc) hroots
        (entered?_eq_none hl) fun r hr i w hcarries => hcarried ⟨r, hr, i, w, hcarries⟩
      rw [hm.finished, hnone] at hv
      cases hv

/-- The copy stands for what the original stands for. -/
theorem Copied.term_image_eq (ha : c.Agrees p) {root : NodeId} (hroot : root ∈ roots) :
    m.target.arena.term (m.copies.image root) = source.term root := by
  rw [hm.term_image hs hc hroots hroot]
  refine Term.substitute_eq_self ((hs.everywhere_term_iff (hroots root hroot)).mpr ?_)
  intro id node hreach hnode v hv
  obtain rfl : node = .leaf v := by
    cases node <;> simp_all [Node.label]
  cases hname : v.name? with
  | none => simp [Variable.substitute, hname]
  | some name =>
    have hcarries : source.Carries root id name v :=
      ⟨hreach, Arena.content?_eq_some_iff.mpr hnode, hname⟩
    obtain ⟨shape, hshape, rfl⟩ := admits_of_carries hs hroots hwithin hroot hcarries name hname
    have hentry := hm.entered?_eq hs hc hroots (hm.resolves_meaning hs hc hroots)
      ⟨root, hroot, id, _, hcarries⟩
    have hmeaning := hm.agrees hs hc hroots hwithin ha name shape _ hshape hentry
    simp [Variable.substitute, hname, hmeaning]

end

end Context

end KernelForge

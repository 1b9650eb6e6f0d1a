import KernelForge.Proofs.Expr.Term
import KernelForge.Proofs.Session.Import
import Mathlib.Data.Finset.Card

/-!
# Each node is copied once

A copying adds one node for each node below its roots that is not a named variable, and one for each
name below them that the receiving table does not have. What is shared in the original is shared in
the copy, and what is not a named variable has a new node of its own.
-/
namespace KernelForge

namespace Arena

/-- The node is at or below one of the roots. -/
def Below (a : Arena) (roots : List NodeId) (id : NodeId) : Prop := ∃ r ∈ roots, a.Reaches r id

/-- The node is not a named variable. -/
def Nameless (a : Arena) (id : NodeId) : Prop := ∀ v, a.content? id = some v → v.name? = none

/-- The node is a variable of the given name. -/
def HasName (a : Arena) (id : NodeId) (name : String) : Prop :=
  ∃ v, a.content? id = some v ∧ v.name? = some name

theorem HasName.not_nameless {a : Arena} {id : NodeId} {name : String} (h : a.HasName id name) :
    ¬ a.Nameless id := by
  obtain ⟨v, hv, hn⟩ := h
  intro hnone
  simp [hnone v hv] at hn

theorem HasName.unique {a : Arena} {id : NodeId} {name other : String} (h : a.HasName id name)
    (h' : a.HasName id other) : name = other := by
  obtain ⟨v, hv, hn⟩ := h
  obtain ⟨w, hw, hm⟩ := h'
  obtain rfl := Option.some.inj (hv.symm.trans hw)
  exact Option.some.inj (hn.symm.trans hm)

end Arena

namespace Context

theorem size_alloc (c : Context) (node : Node) : (c.alloc node).2.arena.size = c.arena.size + 1 :=
  Arena.size_alloc c.arena node

theorem size_allocCall (c : Context) (callee : Signature) (ids : List NodeId) :
    (c.allocCall callee ids).2.arena.size = c.arena.size + 1 :=
  Context.size_alloc ..

theorem size_enter (c : Context) (name : String) (v : Variable) :
    (c.enter name v).2.arena.size = c.arena.size + 1 :=
  Context.size_alloc ..

end Context

namespace Copying

/-- How a context receives the copy of a node: a named variable is looked up, or entered if its name
is new, and any other node becomes a new one. -/
inductive Receipt (source : Arena) (id : NodeId) (c : Context) (copy : NodeId) (d : Context) : Prop
  | plain (nameless : source.Nameless id) (new : copy = ⟨c.arena.size⟩)
      (size : d.arena.size = c.arena.size + 1) (table : ∀ name, d.lookup name = c.lookup name)
  | found (name : String) (named : source.HasName id name) (known : c.lookup name = some copy)
      (same : d = c)
  | entered (name : String) (named : source.HasName id name) (unknown : c.lookup name = none)
      (new : copy = ⟨c.arena.size⟩) (size : d.arena.size = c.arena.size + 1)
      (table : ∀ other, d.lookup other = if name = other then some copy else c.lookup other)

section

variable {source : Arena} {id copy : NodeId} {c d : Context}

theorem Receipt.eq_new (h : Receipt source id c copy d) (hid : source.Nameless id) :
    copy = ⟨c.arena.size⟩ := by
  cases h with
  | plain _ new => exact new
  | found name named => exact absurd hid named.not_nameless
  | entered name named => exact absurd hid named.not_nameless

theorem Receipt.isSome_lookup (h : Receipt source id c copy d) (name : String) :
    (d.lookup name).isSome ↔ source.HasName id name ∨ (c.lookup name).isSome := by
  cases h with
  | plain nameless new size table =>
    have hnot : ¬ source.HasName id name := fun hname => hname.not_nameless nameless
    simp [table, hnot]
  | found first named known same =>
    refine ⟨fun hsome => Or.inr (same ▸ hsome), ?_⟩
    rintro (hname | hsome)
    · obtain rfl := named.unique hname
      simp [same, known]
    · exact same ▸ hsome
  | entered first named unknown new size table =>
    rw [table]
    split_ifs with hname
    · subst hname
      simp [named]
    · have hnot : ¬ source.HasName id name := fun h => hname (named.unique h)
      simp [hnot]

theorem receipt_of_copyNode {copies : Copies} {node : Node} (hnode : source.get? id = some node)
    (h : copies.copyNode source c node = (copy, d)) : Receipt source id c copy d := by
  have hcontent : source.content? id = node.content? := by simp [Arena.content?, hnode]
  have halloc : ∀ node' : Node, source.Nameless id → c.alloc node' = (copy, d) →
      Receipt source id c copy d := by
    intro node' hid heq
    obtain ⟨rfl, rfl⟩ := Prod.mk.inj heq.symm
    exact .plain hid rfl (Context.size_alloc ..) fun _ => rfl
  have hnameless : (∀ v, node ≠ .leaf v) → source.Nameless id := by
    intro hleaf v hv
    rw [hcontent] at hv
    cases node <;> simp_all [Node.content?]
  cases node with
  | leaf v =>
    simp only [Copies.copyNode, Context.receive] at h
    cases hn : v.name? with
    | none =>
      refine halloc (.leaf v) (fun w hw => ?_) (by simpa only [hn] using h)
      rw [hcontent] at hw
      obtain rfl := Option.some.inj hw
      exact hn
    | some name =>
      simp only [hn] at h
      cases hl : c.lookup name with
      | some found =>
        simp only [hl, Prod.mk.injEq] at h
        obtain ⟨rfl, rfl⟩ := h
        exact .found name ⟨v, hcontent, hn⟩ hl rfl
      | none =>
        obtain ⟨rfl, rfl⟩ := Prod.mk.inj ((by simpa only [hl] using h.symm) :
          (copy, d) = c.enter name v)
        exact .entered name ⟨v, hcontent, hn⟩ hl rfl (Context.size_enter ..)
          fun other => Context.lookup_enter ..
  | call callee range =>
    obtain ⟨rfl, rfl⟩ := Prod.mk.inj h.symm
    exact .plain (hnameless (by simp)) rfl (Context.size_allocCall c callee _) fun _ => rfl
  | _ => exact halloc _ (hnameless (by simp)) h

end

end Copying

namespace Context

/-- How many nodes the copies of the nodes `p` add to a context: one for each that is not a named
variable, and one for each name among them that the context does not have. -/
def Additions (c : Context) (source : Arena) (p : NodeId → Prop) (count : Nat) : Prop :=
  ∃ (plain : Finset NodeId) (names : Finset String),
    (∀ id, id ∈ plain ↔ p id ∧ source.Nameless id) ∧
    (∀ name, name ∈ names ↔ c.lookup name = none ∧ ∃ id, p id ∧ source.HasName id name) ∧
    count = plain.card + names.card

section

variable {c : Context} {source : Arena} {p q : NodeId → Prop} {count : Nat} {id : NodeId}

theorem additions_none (hp : ∀ id, ¬ p id) : c.Additions source p 0 :=
  ⟨∅, ∅, by simp [hp], by simp [hp], rfl⟩

theorem Additions.congr (h : c.Additions source p count) (hpq : ∀ id, q id ↔ p id) :
    c.Additions source q count := by
  obtain ⟨plain, names, hplain, hnames, rfl⟩ := h
  exact ⟨plain, names, by simpa only [hpq] using hplain, by simpa only [hpq] using hnames, rfl⟩

/-- Another node that is not a named variable counts. -/
theorem Additions.nameless (h : c.Additions source p count) (hid : source.Nameless id)
    (hnew : ¬ p id) : c.Additions source (fun i => i = id ∨ p i) (count + 1) := by
  obtain ⟨plain, names, hplain, hnames, rfl⟩ := h
  refine ⟨insert id plain, names, fun i => ?_, fun name => ?_, ?_⟩
  · rw [Finset.mem_insert, hplain]
    constructor
    · rintro (rfl | ⟨hi, hn⟩)
      · exact ⟨Or.inl rfl, hid⟩
      · exact ⟨Or.inr hi, hn⟩
    · rintro ⟨rfl | hi, hn⟩
      · exact Or.inl rfl
      · exact Or.inr ⟨hi, hn⟩
  · rw [hnames]
    refine and_congr_right fun _ => exists_congr fun i => and_congr_left fun hn => ?_
    have hne : i ≠ id := by
      rintro rfl
      exact hn.not_nameless hid
    simp [hne]
  · rw [Finset.card_insert_of_notMem fun hmem => hnew ((hplain id).mp hmem).1]
    omega

/-- A variable whose name the context has, or that is among the others, does not count. -/
theorem Additions.known {name : String} (h : c.Additions source p count)
    (hid : source.HasName id name)
    (hknown : (c.lookup name).isSome ∨ ∃ i, p i ∧ source.HasName i name) :
    c.Additions source (fun i => i = id ∨ p i) count := by
  obtain ⟨plain, names, hplain, hnames, rfl⟩ := h
  refine ⟨plain, names, fun i => ?_, fun other => ?_, rfl⟩
  · rw [hplain]
    refine and_congr_left fun hn => ?_
    have hne : i ≠ id := by
      rintro rfl
      exact hid.not_nameless hn
    simp [hne]
  · rw [hnames]
    refine and_congr_right fun hnone => ⟨fun ⟨i, hi, hn⟩ => ⟨i, Or.inr hi, hn⟩, ?_⟩
    rintro ⟨i, rfl | hi, hn⟩
    · obtain rfl := hid.unique hn
      simpa [hnone] using hknown
    · exact ⟨i, hi, hn⟩

/-- A variable whose name is new counts. -/
theorem Additions.named {name : String} (h : c.Additions source p count)
    (hid : source.HasName id name) (hnone : c.lookup name = none)
    (hnew : ∀ i, p i → ¬ source.HasName i name) :
    c.Additions source (fun i => i = id ∨ p i) (count + 1) := by
  obtain ⟨plain, names, hplain, hnames, rfl⟩ := h
  refine ⟨plain, insert name names, fun i => ?_, fun other => ?_, ?_⟩
  · rw [hplain]
    refine and_congr_left fun hn => ?_
    have hne : i ≠ id := by
      rintro rfl
      exact hid.not_nameless hn
    simp [hne]
  · rw [Finset.mem_insert, hnames]
    constructor
    · rintro (rfl | ⟨hother, i, hi, hn⟩)
      · exact ⟨hnone, id, Or.inl rfl, hid⟩
      · exact ⟨hother, i, Or.inr hi, hn⟩
    · rintro ⟨hother, i, rfl | hi, hn⟩
      · exact Or.inl (hn.unique hid)
      · exact Or.inr ⟨hother, i, hi, hn⟩
  · have hmem : name ∉ names := by
      intro hmem
      obtain ⟨-, i, hi, hn⟩ := (hnames name).mp hmem
      exact hnew i hi hn
    rw [Finset.card_insert_of_notMem hmem]
    omega

end

end Context

namespace Copying

variable {source : Arena}

/-- The node has a copy. -/
def HasCopy (m : Copying) (id : NodeId) : Prop := (m.copies.copy? id).isSome

/-- What a copying into the context `c` has added so far. -/
structure Counted (source : Arena) (c : Context) (m : Copying) : Prop where
  count : ∃ count, c.Additions source m.HasCopy count ∧
    m.target.arena.size = c.arena.size + count
  entered : ∀ name, (m.target.lookup name).isSome ↔
    (c.lookup name).isSome ∨ ∃ id, m.HasCopy id ∧ source.HasName id name
  fresh : ∀ id copy, m.copies.copy? id = some copy → source.Nameless id →
    c.arena.size ≤ copy.index
  distinct : ∀ i j copy, m.copies.copy? i = some copy → m.copies.copy? j = some copy →
    source.Nameless i → source.Nameless j → i = j

theorem counted_start (source : Arena) (c : Context) : (start source c).Counted source c := by
  have hnone : ∀ id, ¬ (start source c).HasCopy id := by simp [HasCopy, copy?_start]
  refine ⟨⟨0, Context.additions_none hnone, rfl⟩, fun name => ?_, ?_, ?_⟩
  · have hsame : (start source c).target = c := rfl
    simp [hsame, hnone]
  · intro id copy h
    simp [copy?_start] at h
  · intro i j copy h
    simp [copy?_start] at h

theorem step_receipt {m : Copying} (hv : m.Valid source) {id : NodeId}
    (hid : id.index < source.size) :
    ∃ copy, Receipt source id m.target copy (step source m id).target ∧
      ∀ other, (step source m id).copies.copy? other =
        if id = other then some copy else m.copies.copy? other := by
  obtain ⟨node, hnode⟩ := Arena.exists_get?_of_lt hid
  obtain ⟨copy, target, hcopy⟩ : ∃ copy target,
      m.copies.copyNode source m.target node = (copy, target) := ⟨_, _, rfl⟩
  have hstep : step source m id = ⟨target, m.copies.setIfInBounds id.index (some copy)⟩ := by
    simp [Copying.step, hnode, hcopy]
  rw [hstep]
  exact ⟨copy, receipt_of_copyNode hnode hcopy,
    fun other => Copies.copy?_set m.copies id other copy (by rw [hv.size]; exact hid)⟩

section

variable {c target : Context} {m : Copying} {id copy : NodeId}

theorem Counted.lookup_eq_none (hm : m.Counted source c) {name : String}
    (h : m.target.lookup name = none) :
    c.lookup name = none ∧ ∀ i, m.HasCopy i → ¬ source.HasName i name := by
  have hunknown := (hm.entered name).not.mp (by simp [h])
  push Not at hunknown
  exact ⟨by simpa using hunknown.1, hunknown.2⟩

/-- One more node adds what it counts. -/
theorem Counted.receive (hm : m.Counted source c) (h : Receipt source id m.target copy target)
    (hnew : ¬ m.HasCopy id) :
    ∃ count, c.Additions source (fun i => i = id ∨ m.HasCopy i) count ∧
      target.arena.size = c.arena.size + count := by
  obtain ⟨count, hcount, hsize⟩ := hm.count
  cases h with
  | plain nameless new size table => exact ⟨count + 1, hcount.nameless nameless hnew, by omega⟩
  | found name named known same =>
    have hknown := (hm.entered name).mp (by simp [known])
    exact ⟨count, hcount.known named hknown, same ▸ hsize⟩
  | entered name named unknown new size table =>
    obtain ⟨hnone, hfree⟩ := hm.lookup_eq_none unknown
    exact ⟨count + 1, hcount.named named hnone hfree, by omega⟩

/-- The copying of one more node counts it. -/
theorem step_counted (hv : m.Valid source) (hid : id.index < source.size)
    (hnew : m.copies.copy? id = none) (hm : m.Counted source c) :
    (step source m id).Counted source c := by
  obtain ⟨copy, hreceipt, hcopies⟩ := step_receipt hv hid
  have hhas : ∀ i, (step source m id).HasCopy i ↔ i = id ∨ m.HasCopy i := by
    intro i
    rw [HasCopy, hcopies]
    by_cases hi : id = i
    · simp [hi]
    · simp [hi, Ne.symm hi, HasCopy]
  have hnot : ¬ m.HasCopy id := by simp [HasCopy, hnew]
  obtain ⟨count, hcount, hsize⟩ := hm.receive hreceipt hnot
  -- a copy made before is older than a new node
  have hother : ∀ i, source.Nameless id → m.copies.copy? i ≠ some copy := by
    intro i hnameless hi
    have hlt := hv.copy_lt hi (hv.lt_of_copy? hi)
    simp [hreceipt.eq_new hnameless] at hlt
  refine ⟨⟨count, hcount.congr hhas, hsize⟩, fun name => ?_, ?_, ?_⟩
  · simp only [hhas, or_and_right, exists_or, exists_eq_left]
    rw [hreceipt.isSome_lookup, hm.entered, or_left_comm]
  · intro i k hk hi
    rw [hcopies] at hk
    split_ifs at hk with hne
    · subst hne
      obtain rfl := Option.some.inj hk
      obtain ⟨before, -, hbefore⟩ := hm.count
      simp only [hreceipt.eq_new hi]
      omega
    · exact hm.fresh i k hk hi
  · intro i j k hki hkj hi hj
    rw [hcopies] at hki hkj
    split_ifs at hki hkj with hidi hidj hidj
    · rw [← hidi, ← hidj]
    · subst hidi
      obtain rfl := Option.some.inj hki
      exact absurd hkj (hother j hi)
    · subst hidj
      obtain rfl := Option.some.inj hkj
      exact absurd hki (hother i hj)
    · exact hm.distinct i j k hki hkj hi hj

end

/-- What is not a named variable is copied with its label, over the copies of its operands. -/
theorem Stands.exists_operands {m : Copying} {id copy : NodeId} {node : Node}
    (hst : m.Stands source copy node) (hnode : source.get? id = some node)
    (hid : source.Nameless id) :
    ∃ copied, m.target.arena.get? copy = some copied ∧ copied.label = node.label ∧
      m.target.arena.operands copied = (source.operands node).map m.copies.image := by
  cases node with
  | leaf v =>
    have hn := hid v (Arena.content?_eq_some_iff.mpr hnode)
    exact ⟨.leaf v, (stands_unnamed hn).mp hst, rfl, rfl⟩
  | call callee range =>
    obtain ⟨copied, hget, hlist⟩ := hst
    exact ⟨.call callee copied, hget, rfl, Arena.operands_call hlist⟩
  | declare => exact ⟨_, hst, rfl, rfl⟩
  | assign => exact ⟨_, hst, rfl, rfl⟩
  | index => exact ⟨_, hst, rfl, rfl⟩
  | binary => exact ⟨_, hst, rfl, rfl⟩
  | unary => exact ⟨_, hst, rfl, rfl⟩

end Copying

/-- What it means that `t` is `s` after all that is below the expressions `roots` of the context
`origin` was copied into the context `c`, each node once: no other context changed, all that was in
`c` is still in its place, and as many nodes were added as there are nodes to copy. What is not a
named variable has a new node of its own, over the images of its operands. A named variable has the
node that the table has under its name, and the table has gained such names only. -/
structure Session.CopiesOnce (s t : Session) (origin c : Nat) (roots : List NodeId)
    (image : NodeId → NodeId) : Prop where
  others : ∀ d, d ≠ c → t.context d = s.context d
  keeps : (s.context c).Extends (t.context c)
  count : ∃ count, (s.context c).Additions (s.context origin).arena
      ((s.context origin).arena.Below roots) count ∧
    (t.context c).arena.size = (s.context c).arena.size + count
  fresh : ∀ id, (s.context origin).arena.Below roots id → (s.context origin).arena.Nameless id →
    (s.context c).arena.size ≤ (image id).index ∧ (image id).index < (t.context c).arena.size
  distinct : ∀ i j, (s.context origin).arena.Below roots i → (s.context origin).arena.Below roots j →
    (s.context origin).arena.Nameless i → (s.context origin).arena.Nameless j →
      image i = image j → i = j
  operands : ∀ id node, (s.context origin).arena.Below roots id →
    (s.context origin).arena.Nameless id → (s.context origin).arena.get? id = some node →
      ∃ copied, (t.context c).arena.get? (image id) = some copied ∧ copied.label = node.label ∧
        (t.context c).arena.operands copied =
          ((s.context origin).arena.operands node).map image
  named : ∀ id name, (s.context origin).arena.Below roots id →
    (s.context origin).arena.HasName id name → (t.context c).lookup name = some (image id)
  entered : ∀ name, ((t.context c).lookup name).isSome ↔ ((s.context c).lookup name).isSome ∨
    ∃ id, (s.context origin).arena.Below roots id ∧ (s.context origin).arena.HasName id name

namespace Context

section

variable {source : Arena} (hs : source.Sound) {c : Context} (hc : c.Sound) {roots : List NodeId}
  (hroots : ∀ r ∈ roots, r.index < source.size) {m : Copying} (hm : c.Copied source roots m)
include hs hc hroots hm

/-- What is below the roots is copied, and nothing else is. -/
theorem Copied.hasCopy_iff (id : NodeId) : m.HasCopy id ↔ source.Below roots id := by
  constructor
  · intro h
    rw [Copying.HasCopy, hm.finished] at h
    rcases Copying.copyAll_copied hs (Copying.valid_start source hc) hroots h with h | h
    · simp [Copying.copy?_start] at h
    · exact h
  · rintro ⟨root, hroot, hreach⟩
    exact hm.reaches hroot hreach

theorem Copied.counted : m.Counted source c := by
  rw [hm.finished]
  apply Copying.copyAll_keeps hs _ (Copying.valid_start source hc) hroots
  · exact Copying.counted_start source c
  · exact fun m id hv hid hnew hm => Copying.step_counted hv hid hnew hm

end

theorem Copied.copiesOnce {s : Session} (hs : s.Sound) {c origin : Nat}
    (hc : c < s.contexts.size) {roots : List NodeId}
    (hroots : ∀ r ∈ roots, r.index < (s.context origin).arena.size) {m : Copying}
    (hm : (s.context c).Copied (s.context origin).arena roots m) :
    s.CopiesOnce (s.replace c m.target) origin c roots m.copies.image := by
  have hsource := (hs origin).arena
  have hcounted := hm.counted hsource (hs c) hroots
  have hiff := hm.hasCopy_iff hsource (hs c) hroots
  have hcontext : (s.replace c m.target).context c = m.target := by
    rw [Session.context_replace hc, if_pos rfl]
  have hcopy : ∀ id, (s.context origin).arena.Below roots id →
      m.copies.copy? id = some (m.copies.image id) := by
    intro id hid
    obtain ⟨copy, hcopy⟩ := Option.isSome_iff_exists.mp ((hiff id).mpr hid)
    rw [hcopy, Copies.image_of_copy? hcopy]
  constructor
  · intro d hd
    rw [Session.context_replace hc, if_neg hd.symm]
  · rw [hcontext]
    exact hm.advances.target.extends
  · obtain ⟨count, hcount, hsize⟩ := hcounted.count
    rw [hcontext]
    exact ⟨count, hcount.congr fun id => (hiff id).symm, hsize⟩
  · intro id hid hnameless
    have hlt := hm.valid.copy_lt (hcopy id hid) (hm.valid.lt_of_copy? (hcopy id hid))
    rw [hcontext]
    exact ⟨hcounted.fresh id _ (hcopy id hid) hnameless, hlt⟩
  · intro i j hi hj hinameless hjnameless heq
    exact hcounted.distinct i j _ (hcopy i hi) (heq ▸ hcopy j hj) hinameless hjnameless
  · intro id node hid hnameless hnode
    rw [hcontext]
    exact (hm.valid.stands id _ node (hcopy id hid) hnode).exists_operands hnode hnameless
  · intro id name hid hnamed
    obtain ⟨v, hv, hn⟩ := hnamed
    have hst := hm.valid.stands id _ _ (hcopy id hid) (Arena.content?_eq_some_iff.mp hv)
    rw [hcontext]
    exact (Copying.stands_named hn).mp hst
  · intro name
    rw [hcontext, hcounted.entered]
    simp only [hiff]

end Context

namespace Session

section

variable {s : Session} (hs : s.Sound) {c : Nat} (hc : c < s.contexts.size)
include hs hc

theorem attach_copiesOnce {h : Handle} (hh : s.HoldsOperand (.handle h)) (hne : h.context ≠ c) :
    ∃ image, (attach c (.handle h) s).1 = image h.node ∧
      s.CopiesOnce (attach c (.handle h) s).2 h.context c [h.node] image := by
  obtain ⟨m, hm, heq⟩ := attach_foreign hs hh hne
  rw [heq]
  exact ⟨m.copies.image, rfl, hm.copiesOnce hs hc fun r hr => hh.2 r hr⟩

theorem adopt_copiesOnce {origin : Nat} {stmt : Stmt}
    (hst : s.HoldsStatement ⟨some origin, stmt⟩) (hne : origin ≠ c) :
    ∃ image, (adopt c ⟨some origin, stmt⟩ s).1 = stmt.mapRoots image ∧
      s.CopiesOnce (adopt c ⟨some origin, stmt⟩ s).2 origin c stmt.roots image := by
  obtain ⟨m, hm, heq⟩ := adopt_foreign hs hst hne
  rw [heq]
  exact ⟨m.copies.image, rfl, hm.copiesOnce hs hc fun r hr => hst.2 r hr⟩

end

end Session

namespace Workspace

/-- After any actions, also in the middle of a further one, a handle or a statement of one context
may be taken into another one. All that is below its expressions is then copied once. -/
theorem run_copiesOnce (role : Role) (provenances : List String) (actions : List Action) :
    let w := (new role provenances).run actions
    ∀ s, w.session.Grows s → ∀ c, c < s.contexts.size →
      (∀ h : Handle, s.HoldsOperand (.handle h) → h.context ≠ c →
        ∃ image, (Session.attach c (.handle h) s).1 = image h.node ∧
          s.CopiesOnce (Session.attach c (.handle h) s).2 h.context c [h.node] image) ∧
      ∀ origin stmt, s.HoldsStatement ⟨some origin, stmt⟩ → origin ≠ c →
        ∃ image, (Session.adopt c ⟨some origin, stmt⟩ s).1 = stmt.mapRoots image ∧
          s.CopiesOnce (Session.adopt c ⟨some origin, stmt⟩ s).2 origin c stmt.roots image := by
  intro w s hgrows c hc
  have hw : w.Valid := run_valid (valid_new role provenances) actions
  have hs := hgrows.sound hw.sound
  exact ⟨fun h hh hne => Session.attach_copiesOnce hs hc hh hne,
    fun origin stmt hst hne => Session.adopt_copiesOnce hs hc hst hne⟩

/-- A sum of a sum with itself has four nodes, and so has its copy. -/
theorem run_copiesOnce_sum :
    let w := (new .crisc ["a", "b"]).run
      [.intern 0 "x" (.scalar .i32), .binary .add 0 (.literal (.i32 1)), .binary .add 1 (.answer 1)]
    let t := (Session.attach 1 (.handle ⟨0, ⟨3⟩⟩) w.session).2
    (∃ image, (Session.attach 1 (.handle ⟨0, ⟨3⟩⟩) w.session).1 = image ⟨3⟩ ∧
      w.session.CopiesOnce t 0 1 [⟨3⟩] image) ∧
    (w.session.context 0).arena.size = 4 ∧ (t.context 1).arena.size = 4 := by
  refine ⟨?_, by decide +kernel, by decide +kernel⟩
  have hcopies := run_copiesOnce .crisc ["a", "b"]
    [.intern 0 "x" (.scalar .i32), .binary .add 0 (.literal (.i32 1)), .binary .add 1 (.answer 1)]
    _ (.refl _) 1 (by decide)
  exact hcopies.1 ⟨0, ⟨3⟩⟩ (Session.holds_singleton.mpr ⟨by decide, by decide⟩) (by decide)

end Workspace

end KernelForge

import KernelForge.Proofs.Expr.Sound
import Mathlib.Logic.Relation

/-!
# What is below a node

The nodes at or below a root, as a relation, and the sweep that lists them. In a sound arena one
sweep from the highest id down marks all of them, since operands are older than their nodes.
-/
namespace KernelForge.Arena

/-- From a node to one of its operands. -/
def Edge (a : Arena) (id o : NodeId) : Prop := ∃ node, a.get? id = some node ∧ o ∈ a.operands node

/-- From a root to the nodes at or below it. -/
def Reaches (a : Arena) : NodeId → NodeId → Prop := Relation.ReflTransGen a.Edge

/-- From a root to the nodes below it, through nodes that are not known. -/
def ReachesNew (a : Arena) (known : NodeId → Bool) : NodeId → NodeId → Prop :=
  Relation.ReflTransGen fun id o => a.Edge id o ∧ known o = false

theorem Sound.edge_lt {a : Arena} (hs : a.Sound) {id o : NodeId} (h : a.Edge id o) :
    o.index < id.index := by
  obtain ⟨node, hnode, ho⟩ := h
  exact hs.older id node o hnode ho

theorem Sound.reaches_le {a : Arena} (hs : a.Sound) {root id : NodeId} (h : a.Reaches root id) :
    id.index ≤ root.index := by
  induction h with
  | refl => exact Nat.le_refl _
  | tail _ hedge ih =>
    have := hs.edge_lt hedge
    omega

theorem ReachesNew.reaches {a : Arena} {known : NodeId → Bool} {root id : NodeId}
    (h : a.ReachesNew known root id) : a.Reaches root id := by
  induction h with
  | refl => exact .refl
  | tail _ hstep ih => exact ih.tail hstep.1

theorem reachesNew_iff {a : Arena} {known : NodeId → Bool} {root id : NodeId}
    (closed : ∀ i o, known i = true → a.Edge i o → known o = true) (hroot : known root = false) :
    a.ReachesNew known root id ↔ a.Reaches root id ∧ known id = false := by
  constructor
  · intro h
    induction h with
    | refl => exact ⟨.refl, hroot⟩
    | tail _ hstep ih => exact ⟨ih.1.tail hstep.1, hstep.2⟩
  · rintro ⟨h, hid⟩
    induction h with
    | refl => exact .refl
    | @tail i o _ hedge ih =>
      have hi : known i = false := by
        by_contra hk
        have := closed i o (by simpa using hk) hedge
        simp [this] at hid
      exact (ih hi).tail ⟨hedge, hid⟩

/-! ## The sweep -/

/-- Whether a place is marked. -/
def marked (marks : Array Bool) (i : Nat) : Prop := marks[i]?.getD false = true

theorem marked_lt {marks : Array Bool} {i : Nat} (h : marked marks i) : i < marks.size := by
  by_contra hle
  simp [marked, Array.getElem?_eq_none (Nat.le_of_not_lt hle)] at h

theorem marked_set {marks : Array Bool} {i j : Nat} :
    marked (marks.setIfInBounds i true) j ↔ marked marks j ∨ (j < marks.size ∧ i = j) := by
  unfold marked
  rw [Array.getElem?_setIfInBounds]
  by_cases hij : i = j
  · subst hij
    by_cases hlt : i < marks.size <;> simp [hlt]
  · simp [hij]

theorem marked_foldl {marks : Array Bool} {ids : List NodeId} {j : Nat} :
    marked (ids.foldl (fun m id => m.setIfInBounds id.index true) marks) j ↔
      marked marks j ∨ (j < marks.size ∧ ⟨j⟩ ∈ ids) := by
  induction ids generalizing marks with
  | nil => simp
  | cons id ids ih =>
    rw [List.foldl_cons, ih, marked_set, Array.size_setIfInBounds, List.mem_cons]
    have hid : id.index = j ↔ (⟨j⟩ : NodeId) = id := by cases id; simp [eq_comm]
    rw [hid]
    tauto

theorem mem_newOperands {a : Arena} {known : NodeId → Bool} {id o : NodeId} :
    o ∈ ((a.get? id).elim [] a.operands).filter (fun o => !known o) ↔
      a.Edge id o ∧ known o = false := by
  unfold Edge
  cases a.get? id <;> simp

/-- The sweep marks what is below the marked places, from the given bound down. -/
theorem marked_sweep {a : Arena} (hs : a.Sound) (known : NodeId → Bool) (bound : Nat)
    (marks : Array Bool) (j : Nat) :
    marked (a.sweep known bound marks) j ↔
      ∃ k, marked marks k ∧ (k = j ∨ (k < bound ∧ a.ReachesNew known ⟨k⟩ ⟨j⟩)) := by
  induction bound generalizing marks with
  | zero => simp [sweep]
  | succ i ih =>
    rw [sweep]
    split_ifs with hi
    · have hi : marked marks i := hi
      simp only [ih, marked_foldl, mem_newOperands]
      constructor
      · rintro ⟨k, hk | ⟨hlt, hedge⟩, hkj⟩
        · exact ⟨k, hk, hkj.imp_right fun h => ⟨by omega, h.2⟩⟩
        · refine ⟨i, hi, Or.inr ⟨by omega, ?_⟩⟩
          rcases hkj with rfl | ⟨-, hreach⟩
          · exact .single hedge
          · exact .head hedge hreach
      · rintro ⟨k, hk, hkj⟩
        rcases hkj with rfl | ⟨hlt, hreach⟩
        · exact ⟨k, Or.inl hk, Or.inl rfl⟩
        · by_cases hki : k = i
          · -- the node of the place itself: one step further, its operands are marked
            subst hki
            rcases Relation.ReflTransGen.cases_head hreach with heq | ⟨o, hedge, hrest⟩
            · exact ⟨k, Or.inl hk, Or.inl (congrArg NodeId.index heq)⟩
            · have hlt := hs.edge_lt hedge.1
              have hsize := marked_lt hk
              simp only at hlt
              exact ⟨o.index, Or.inr ⟨by omega, hedge⟩, Or.inr ⟨hlt, hrest⟩⟩
          · exact ⟨k, Or.inl hk, Or.inr ⟨by omega, hreach⟩⟩
    · have hi : ¬ marked marks i := hi
      rw [ih]
      refine exists_congr fun k => and_congr_right fun hk => or_congr_right ?_
      have hne : k ≠ i := by
        rintro rfl
        exact hi hk
      refine and_congr_left fun _ => ?_
      omega

/-- The list holds what is below the root through nodes that are not known. -/
theorem mem_reachable {a : Arena} (hs : a.Sound) {known : NodeId → Bool} {root id : NodeId}
    (hroot : root.index < a.size) : id ∈ a.reachable known root ↔ a.ReachesNew known root id := by
  have hle : a.ReachesNew known root id → id.index ≤ root.index := fun h =>
    hs.reaches_le h.reaches
  have hbound : min (root.index + 1) a.size = root.index + 1 := by omega
  have hinit : ∀ k, marked ((Array.replicate (root.index + 1) false).setIfInBounds root.index true) k ↔
      k = root.index := by
    intro k
    rw [marked_set, Array.size_replicate]
    constructor
    · rintro (h | ⟨-, rfl⟩)
      · unfold marked at h
        rw [Array.getElem?_replicate] at h
        split_ifs at h <;> simp at h
      · rfl
    · rintro rfl
      exact Or.inr ⟨by omega, rfl⟩
  have hmem : id ∈ a.reachable known root ↔ id.index < root.index + 1 ∧
      marked (a.sweep known (root.index + 1)
        ((Array.replicate (root.index + 1) false).setIfInBounds root.index true)) id.index := by
    simp only [reachable, hbound, List.mem_map, List.mem_filter, List.mem_range]
    constructor
    · rintro ⟨i, h, rfl⟩
      exact h
    · intro h
      exact ⟨id.index, h, rfl⟩
  rw [hmem, marked_sweep hs]
  constructor
  · rintro ⟨-, k, hk, heq | ⟨-, hreach⟩⟩
    · obtain rfl := (hinit k).mp hk
      obtain rfl : root = id := NodeId.eq_of_index_eq heq
      exact .refl
    · obtain rfl := (hinit k).mp hk
      exact hreach
  · intro h
    have := hle h
    exact ⟨by omega, root.index, (hinit _).mpr rfl, Or.inr ⟨by omega, h⟩⟩

theorem pairwise_reachable (a : Arena) (known : NodeId → Bool) (root : NodeId) :
    (a.reachable known root).Pairwise fun i j => i.index < j.index := by
  unfold reachable
  exact List.pairwise_map.mpr (List.pairwise_lt_range.filter _)

end KernelForge.Arena

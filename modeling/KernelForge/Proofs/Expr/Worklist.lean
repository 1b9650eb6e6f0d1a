import KernelForge.Proofs.Expr.Reach
import Mathlib.Data.Finset.Card
import Mathlib.Data.Finset.Range
import Mathlib.Data.List.Sort

/-!
# Collecting nodes with a worklist

The nodes below a root can also be collected with a stack of ids that are still to be looked at. The
one on top is taken off. Unless it is known or was met before, it is met now, and its operands go on
the stack. In a sound arena the ids that are met are those that the sweep marks, so a copy takes the
same nodes in the same order.
-/
namespace KernelForge

namespace Arena

/-- The nodes of the arena that were not met. -/
def unmet (a : Arena) (met : List NodeId) : Finset Nat :=
  (Finset.range a.size).filter fun i => ⟨i⟩ ∉ met

theorem unmet_cons_subset {a : Arena} {met : List NodeId} {id : NodeId} :
    a.unmet (id :: met) ⊆ a.unmet met := by
  intro i hi
  simp only [unmet, Finset.mem_filter, List.mem_cons, not_or] at hi ⊢
  exact ⟨hi.1, hi.2.2⟩

theorem card_unmet_cons_lt {a : Arena} {met : List NodeId} {id : NodeId} (hid : id.index < a.size)
    (hnew : id ∉ met) : (a.unmet (id :: met)).card < (a.unmet met).card := by
  refine Finset.card_lt_card ((Finset.ssubset_iff_of_subset unmet_cons_subset).mpr ⟨id.index, ?_⟩)
  simpa [unmet] using ⟨hid, hnew⟩

/-- The ids that are met until nothing is pending any more, the latest first. -/
def workOff (a : Arena) (known : NodeId → Bool) : List NodeId → List NodeId → List NodeId
  | [], met => met
  | id :: pending, met =>
    if known id ∨ id ∈ met then a.workOff known pending met
    else a.workOff known (((a.get? id).elim [] a.operands).reverse ++ pending) (id :: met)
termination_by pending met => ((a.unmet met).card, pending.length)
decreasing_by
  · exact Prod.Lex.right _ (Nat.lt_succ_self _)
  · rename_i hnew
    by_cases hid : id.index < a.size
    · exact Prod.Lex.left _ _ (card_unmet_cons_lt hid fun hmem => hnew (Or.inr hmem))
    · -- a dangling id has no operands, so that the stack gets shorter
      have hnone : a.get? id = none := Array.getElem?_eq_none (Nat.not_lt.mp hid)
      rw [hnone]
      have hle := Finset.card_le_card (unmet_cons_subset : a.unmet (id :: met) ⊆ a.unmet met)
      rcases Nat.lt_or_eq_of_le hle with hlt | heq
      · exact Prod.Lex.left _ _ hlt
      · rw [heq]
        exact Prod.Lex.right _ (Nat.lt_succ_self _)

section

variable {a : Arena} {known : NodeId → Bool} {pending met : List NodeId} {id : NodeId}

/-- Whatever was met stays met, and whatever is pending and not known will be met. -/
theorem mem_workOff_of_mem (h : id ∈ met ∨ (id ∈ pending ∧ known id = false)) :
    id ∈ a.workOff known pending met := by
  fun_induction workOff a known pending met <;> grind

theorem mem_reverse_operands {o : NodeId} :
    o ∈ ((a.get? id).elim [] a.operands).reverse ↔ a.Edge id o := by
  unfold Edge
  cases a.get? id <;> simp

/-- Nothing is met but what lies at or below something that was pending. -/
theorem exists_reachesNew_of_mem_workOff (h : id ∈ a.workOff known pending met) (hmet : id ∉ met) :
    ∃ k ∈ pending, known k = false ∧ a.ReachesNew known k id := by
  fun_induction workOff a known pending met with
  | case1 met => exact absurd h hmet
  | case2 next pending met hskip ih =>
    obtain ⟨k, hk, hreach⟩ := ih h hmet
    exact ⟨k, List.mem_cons_of_mem _ hk, hreach⟩
  | case3 next pending met hnew ih =>
    have hnext : known next = false := by simpa using fun hk => hnew (Or.inl hk)
    by_cases heq : id = next
    · exact ⟨next, List.mem_cons_self, hnext, heq ▸ .refl⟩
    · obtain ⟨k, hk, hknown, hreach⟩ := ih h (by simp [heq, hmet])
      rcases List.mem_append.mp hk with hoperand | hpending
      · exact ⟨next, List.mem_cons_self, hnext,
          .head ⟨mem_reverse_operands.mp hoperand, hknown⟩ hreach⟩
      · exact ⟨k, List.mem_cons_of_mem _ hpending, hknown, hreach⟩

theorem nodup_workOff (h : met.Nodup) : (a.workOff known pending met).Nodup := by
  fun_induction workOff a known pending met <;> simp_all

/-- The operands of everything that was met are met, or still pending, unless they are known. -/
def Accounted (a : Arena) (known : NodeId → Bool) (pending met : List NodeId) : Prop :=
  ∀ i ∈ met, ∀ o, a.Edge i o → known o = false → o ∈ met ∨ o ∈ pending

theorem accounted_workOff (h : a.Accounted known pending met) :
    a.Accounted known [] (a.workOff known pending met) := by
  fun_induction workOff a known pending met with
  | case1 met => exact h
  | case2 next pending met hskip ih =>
    refine ih fun i hi o hedge ho => ?_
    rcases h i hi o hedge ho with hmem | hmem
    · exact Or.inl hmem
    · rcases List.mem_cons.mp hmem with rfl | hpending
      · exact Or.inl (hskip.resolve_left (by simp [ho]))
      · exact Or.inr hpending
  | case3 next pending met hnew ih =>
    refine ih fun i hi o hedge ho => ?_
    rcases List.mem_cons.mp hi with rfl | hmet
    · exact Or.inr (List.mem_append_left _ (mem_reverse_operands.mpr hedge))
    · rcases h i hmet o hedge ho with hmem | hmem
      · exact Or.inl (List.mem_cons_of_mem _ hmem)
      · rcases List.mem_cons.mp hmem with rfl | hpending
        · exact Or.inl List.mem_cons_self
        · exact Or.inr (List.mem_append_right _ hpending)

/-- From a root that is not known, the worklist meets what is below it through nodes that are not
known. -/
theorem mem_workOff_root {root : NodeId} (hroot : known root = false) :
    id ∈ a.workOff known [root] [] ↔ a.ReachesNew known root id := by
  constructor
  · intro h
    obtain ⟨k, hk, -, hreach⟩ := exists_reachesNew_of_mem_workOff h (by simp)
    rwa [List.mem_singleton.mp hk] at hreach
  · intro h
    have hdone : a.Accounted known [] (a.workOff known [root] []) :=
      accounted_workOff fun i hi => absurd hi List.not_mem_nil
    induction h with
    | refl => exact mem_workOff_of_mem (Or.inr ⟨List.mem_singleton_self root, hroot⟩)
    | tail _ hstep ih => exact (hdone _ ih _ hstep.1 hstep.2).resolve_right List.not_mem_nil

end

/-- The sweep lists what the worklist meets, in order. -/
theorem mergeSort_workOff_eq_reachable {a : Arena} (hs : a.Sound) {known : NodeId → Bool}
    {root : NodeId} (hroot : root.index < a.size) (hnew : known root = false) :
    (a.workOff known [root] []).mergeSort (fun i j => i.index ≤ j.index) =
      a.reachable known root := by
  have hlisted := a.pairwise_reachable known root
  have hperm : (a.workOff known [root] []).Perm (a.reachable known root) := by
    refine (List.perm_ext_iff_of_nodup (nodup_workOff List.nodup_nil) ?_).mpr fun id => ?_
    · exact hlisted.imp fun {i j} hlt heq => absurd (congrArg NodeId.index heq) hlt.ne
    · rw [mem_workOff_root hnew, mem_reachable hs hroot]
  have hsorted : ((a.workOff known [root] []).mergeSort fun i j => i.index ≤ j.index).Pairwise
      fun i j => decide (i.index ≤ j.index) = true := by
    refine List.pairwise_mergeSort (fun i j k hij hjk => ?_) (fun i j => ?_) _
    · simp only [decide_eq_true_eq] at hij hjk ⊢
      exact hij.trans hjk
    · simpa using Nat.le_total i.index j.index
  exact List.Perm.eq_of_pairwise
    (fun i j _ _ hij hji => NodeId.eq_of_index_eq (Nat.le_antisymm hij hji))
    (hsorted.imp of_decide_eq_true) (hlisted.imp Nat.le_of_lt)
    ((List.mergeSort_perm _ _).trans hperm)

end Arena

namespace Copying

/-- What has to be copied for a root is what the worklist meets on the way from it, in ascending
order. -/
theorem missing_eq_workOff {source : Arena} (hs : source.Sound) {copies : Copies} {root : NodeId}
    (hroot : root.index < source.size) :
    missing source copies root =
      (source.workOff (fun id => (copies.copy? id).isSome) [root] []).mergeSort
        fun i j => i.index ≤ j.index := by
  unfold missing
  split_ifs with hcopied
  · rw [Arena.workOff, if_pos (Or.inl hcopied), Arena.workOff, List.mergeSort_nil]
  · exact (Arena.mergeSort_workOff_eq_reachable hs hroot (by simpa using hcopied)).symm

end Copying

end KernelForge

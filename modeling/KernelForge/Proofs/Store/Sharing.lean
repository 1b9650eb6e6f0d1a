import KernelForge.Proofs.Store.SharedStore
import Mathlib.Data.List.Induction

/-!
# Stores that share a directory

Stores are opened on an empty directory and asked in any order. Every answer is the one that the
ledger tells, and the directory holds what the ledger tells.
-/
namespace KernelForge

open StoreConfig FileTree

namespace Ledger

/-! ## Opening a store -/

/-- The files when the lock was made, if it was missing. -/
theorem Fills.openStore {L : Ledger} {f : Contents} (h : L.Fills f) :
    (L.after .openStore).Fills (Function.update f lockFile (some [])) := by
  obtain ⟨entries, hindex, hentries⟩ := h.index
  refine ⟨?_, ⟨entries, ?_, hentries⟩, ?_, ?_⟩
  · have hopen : (L.after .openStore).opened ≠ 0 := Nat.succ_ne_zero L.opened
    rw [Function.update_self, if_neg hopen]
  · rwa [Indexes, Function.update_of_ne (by decide)]
  · intro hash k hk
    rw [Function.update_of_ne k.file_ne.2.1]
    exact h.text hash k hk
  · intro name hname
    by_cases hlock : name = lockFile
    · exact Or.inl hlock
    · rw [Function.update_of_ne hlock] at hname
      exact h.only name hname

section

variable {base t : FileTree} {dir : Path} {place : List String} {f : Contents} {L : Ledger}
  (hb : base.Ready dir place) (hf : Filled base place t f)
  (hdir : dir.utf8ByteSize + 1 + longestFile ≤ longestPath) (hL : L.Fills f)
include hb hf hdir hL

theorem Fills.locked_apply : ∃ t', Filled base place t' (Function.update f lockFile (some [])) ∧
    ∀ {α : Type} (exclusive : Bool) (action : StateM FileTree α),
      Files.locked (dir.join lockFile) exclusive action t = (.ok (action t').1, (action t').2) := by
  have hlock := hL.lock
  split_ifs at hlock with hopen
  · exact hf.locked_of_none hb hdir hlock
  · refine ⟨t, ?_, fun exclusive action => hf.locked_of_some hb hdir hlock exclusive action⟩
    rwa [← hlock, Function.update_eq_self]

theorem openAt_apply : ∃ entries t', (Store.openAt (ofDir dir) : StateM FileTree _) t =
      (.ok ⟨ofDir dir, entries⟩, t') ∧
    ∃ f', Filled base place t' f' ∧ (L.after .openStore).Fills f' := by
  obtain ⟨t', hf', hlocked⟩ := hL.locked_apply hb hf hdir
  have hL' := hL.openStore
  obtain ⟨entries, hindex, -⟩ := hL'.index
  refine ⟨entries, t', ?_, _, hf', hL'⟩
  have hmake : (Files.makeDirs (ofDir dir).dir : StateM FileTree _) t = (.ok (), t) :=
    (hf.opens hb).makeDirs_apply
  have hload : (Files.locked (ofDir dir).lockPath false (ofDir dir).load : StateM FileTree _) t =
      (.ok (.ok entries), t') := by
    have hread := hlocked false ((ofDir dir).load : StateM FileTree _)
    rwa [hf'.load_apply hb hdir hindex] at hread
  rw [Store.openAt, bind_apply, hmake]
  dsimp only
  rw [bind_apply, hload]
  rfl

end

/-! ## Runs -/

theorem stored_run_eq_none {actions : List Shared.Action} {h : ContentHash}
    (hactions : ∀ i k, .ask i (.put k) ∈ actions → Store.hashOf k ≠ h) :
    (run actions).stored h = none := by
  induction actions using List.reverseRecOn with
  | nil => rfl
  | append_singleton before action ih =>
    have hbefore := ih fun i k hmem => hactions i k (List.mem_append_left _ hmem)
    rw [run, List.foldl_append]
    change ((run before).after action).stored h = none
    cases action with
    | openStore => exact hbefore
    | ask i r =>
      rw [after]
      split_ifs
      · cases r with
        | put k =>
          have hk := hactions i k (by simp)
          rw [Ledger.serve]
          split_ifs
          · rwa [stored_add, if_neg (Ne.symm hk)]
          · exact hbefore
        | clear => rfl
        | _ => exact hbefore
      · exact hbefore

/-- The stores are open on the directory, and their directory holds what the ledger tells. -/
structure Kept (L : Ledger) (base : FileTree) (dir : Path) (place : List String) (w : Shared) :
    Prop where
  opened : w.stores.length = L.opened
  config : ∀ s ∈ w.stores, s.config = ofDir dir
  files : ∃ f, Filled base place w.tree f ∧ L.Fills f
  valid : L.Valid

theorem Valid.serve {L : Ledger} (h : L.Valid) (r : Store.Request)
    (hr : ∀ k, r = .put k → Index.Writable k.provenance) : (L.serve r).Valid := by
  cases r with
  | put k =>
    rw [Ledger.serve]
    split_ifs
    · exact h.add (hr k rfl)
    · exact h
  | clear => exact ⟨fun h k hk => (by cases hk), fun h k hk => (by cases hk)⟩
  | _ => exact h

theorem opened_serve (L : Ledger) (r : Store.Request) : (L.serve r).opened = L.opened := by
  cases r with
  | put k =>
    rw [Ledger.serve]
    split_ifs <;> rfl
  | _ => rfl

theorem kept_empty {base : FileTree} {dir : Path} {place : List String}
    (hb : base.Ready dir place) : empty.Kept base dir place ⟨base, []⟩ := by
  refine ⟨rfl, by simp, ⟨_, filled_base hb, rfl, ⟨.empty, rfl, fun _ => rfl⟩, ?_, ?_⟩, ?_⟩
  · intro hash k hk
    cases hk
  · intro name hname
    exact absurd rfl hname
  · exact ⟨fun h k hk => (by cases hk), fun h k hk => (by cases hk)⟩

/-- An action comes out as the ledger tells. It leaves the files alone unless the ledger changes or is
cleared. -/
structure Performed (L : Ledger) (base : FileTree) (dir : Path) (place : List String)
    (t : FileTree) (action : Shared.Action) (out : Shared.Answer × Shared) : Prop where
  answer : L.Answers dir action out.1
  kept : (L.after action).Kept base dir place out.2
  same : (∀ i, action ≠ .ask i .clear) → L.after action = L → out.2.tree = t

section

variable {base : FileTree} {dir : Path} {place : List String} {L : Ledger} {w : Shared}
  (hb : base.Ready dir place) (hdir : dir.utf8ByteSize + 1 + longestFile ≤ longestPath)
  (h : L.Kept base dir place w)
include hb hdir h

theorem openStore_performed :
    L.Performed base dir place w.tree .openStore (w.perform dir .openStore) := by
  obtain ⟨f, hf, hL⟩ := h.files
  obtain ⟨entries, t', hopen, hfiles⟩ := openAt_apply hb hf hdir hL
  have hperform : w.perform dir .openStore =
      (.opened (.ok ()), ⟨t', w.stores ++ [⟨ofDir dir, entries⟩]⟩) := by
    rw [Shared.perform, hopen]
  rw [hperform]
  refine ⟨rfl, ⟨?_, ?_, hfiles, h.valid.hash, h.valid.writable⟩, fun _ hsame => ?_⟩
  · rw [List.length_append, h.opened]
    rfl
  · intro s hs
    rcases List.mem_append.mp hs with hs | hs
    · exact h.config s hs
    · rw [List.mem_singleton.mp hs]
  · exact absurd (congrArg Ledger.opened hsame) (Nat.succ_ne_self L.opened)

theorem ask_performed (i : ℕ) (r : Store.Request)
    (hr : ∀ k, r = .put k → Index.Writable k.provenance) (hroom : (L.after (.ask i r)).HasRoom) :
    L.Performed base dir place w.tree (.ask i r) (w.perform dir (.ask i r)) := by
  cases hs : w.stores[i]? with
  | none =>
    have hi : ¬ i < L.opened := by
      rw [← h.opened, Nat.not_lt]
      exact List.getElem?_eq_none_iff.mp hs
    have hafter : L.after (.ask i r) = L := if_neg hi
    have hperform : w.perform dir (.ask i r) = (.noStore, w) := by
      rw [Shared.perform, hs]
    rw [hperform]
    refine ⟨?_, by rwa [hafter], fun _ _ => rfl⟩
    rw [Answers, if_neg hi]
  | some s =>
    have hi : i < L.opened := by
      rw [← h.opened]
      exact (List.getElem?_eq_some_iff.mp hs).1
    have hafter : L.after (.ask i r) = L.serve r := if_pos hi
    rw [hafter] at hroom
    obtain ⟨c, known⟩ := s
    obtain rfl : c = ofDir dir := h.config _ (List.mem_of_getElem? hs)
    obtain ⟨f, hf, hL⟩ := h.files
    have hserved := serve_served hb hf hdir hL (by omega) h.valid known r hr hroom
    have hperform : ∀ out, (⟨ofDir dir, known⟩ : Store).serve r w.tree = out →
        w.perform dir (.ask i r) = (.reply out.1.1, ⟨out.2, w.stores.set i out.1.2⟩) := by
      rintro out rfl
      rw [Shared.perform, hs]
      rfl
    rw [hperform _ rfl]
    refine ⟨?_, ⟨?_, ?_, ?_, ?_⟩, ?_⟩
    · rw [Answers, if_pos hi]
      exact ⟨_, hserved.reply, rfl⟩
    · rw [List.length_set, h.opened, hafter, opened_serve]
    · intro s' hs'
      rcases List.mem_or_eq_of_mem_set hs' with hold | rfl
      · exact h.config s' hold
      · exact hserved.config
    · rw [hafter]
      exact hserved.files
    · rw [hafter]
      exact h.valid.serve r hr
    · intro hclear hsame
      rw [hafter] at hsame
      exact hserved.same (fun heq => hclear i (by rw [heq])) hsame

theorem perform_performed (action : Shared.Action)
    (haction : ∀ i k, action = .ask i (.put k) → Index.Writable k.provenance)
    (hroom : (L.after action).HasRoom) :
    L.Performed base dir place w.tree action (w.perform dir action) := by
  cases action with
  | openStore => exact openStore_performed hb hdir h
  | ask i r =>
    exact ask_performed hb hdir h i r (fun k hk => haction i k (by rw [hk])) hroom

omit h in
theorem run_kept {actions : List Shared.Action}
    (hactions : ∀ i k, .ask i (.put k) ∈ actions → Index.Writable k.provenance)
    (hroom : ∀ before, before <+: actions → (run before).HasRoom) :
    (run actions).Kept base dir place (Shared.run dir ⟨base, []⟩ actions) := by
  induction actions using List.reverseRecOn with
  | nil => exact kept_empty hb
  | append_singleton before action ih =>
    have hkept := ih (fun i k hmem => hactions i k (List.mem_append_left _ hmem))
      fun start hstart => hroom start (hstart.trans (List.prefix_append _ _))
    have hrun : run (before ++ [action]) = (run before).after action := by
      rw [run, List.foldl_append]
      rfl
    have hstep := perform_performed hb hdir hkept action
      (fun i k heq => hactions i k (by simp [heq])) (hrun ▸ hroom _ (List.prefix_refl _))
    rw [hrun, Shared.run, List.foldl_append]
    exact hstep.kept

end

end Ledger

/-- Stores that are opened on an empty directory and asked for anything in any order behave as one
map from hashes to kernels. Each answer is the only one that the ledger allows. The directory then
holds the index, the lock and the files of the kernels in the ledger, and nothing outside it has
changed. Unless the ledger changes or is cleared, the action changes no file at all.

The paths of the files have to be short enough to be followed, and lengths and the number of entries
have to fit into the eight bytes that the index has for them. -/
theorem Shared.perform_run {base : FileTree} {dir : Path} {place : List String}
    (hready : base.Ready dir place) (hdir : dir.utf8ByteSize + 1 + longestFile ≤ longestPath)
    {actions : List Shared.Action} {action : Shared.Action}
    (hwritable : ∀ i k, .ask i (.put k) ∈ actions ++ [action] → Index.Writable k.provenance)
    (hroom : ∀ before, before <+: actions ++ [action] → ∃ h, (Ledger.run before).stored h = none) :
    let L := Ledger.run actions
    let w := Shared.run dir ⟨base, []⟩ actions
    (∀ a, L.Answers dir action a ↔ a = (w.perform dir action).1) ∧
    (∃ f, Filled base place (w.perform dir action).2.tree f ∧ (L.after action).Fills f) ∧
    ((∀ i, action ≠ .ask i .clear) → L.after action = L →
      (w.perform dir action).2.tree = w.tree) := by
  intro L w
  have hkept : L.Kept base dir place w :=
    Ledger.run_kept hready hdir (fun i k hmem => hwritable i k (List.mem_append_left _ hmem))
      fun before hbefore => hroom before (hbefore.trans (List.prefix_append _ _))
  have hrun : Ledger.run (actions ++ [action]) = L.after action := by
    rw [Ledger.run, List.foldl_append]
    rfl
  have hperformed := Ledger.perform_performed hready hdir hkept action
    (fun i k heq => hwritable i k (by simp [heq])) (hrun ▸ hroom _ (List.prefix_refl _))
  refine ⟨fun a => ⟨fun ha => ha.unique hperformed.answer, ?_⟩, hperformed.kept.files,
    hperformed.same⟩
  rintro rfl
  exact hperformed.answer

/-- A text that one store has stored is not stored again by another one. -/
theorem Shared.perform_run_again :
    let base : FileTree := ⟨Table.empty.insert ["cache"] .directory⟩
    let first : Kernel := ⟨.brisc, "first.rs:1", "void f();", []⟩
    let again : Kernel := ⟨.crisc, "again.rs:2", "void f();", []⟩
    let w := Shared.run "cache" ⟨base, []⟩ [.openStore, .openStore, .ask 0 (.put first)]
    base.Ready "cache" ["cache"] ∧
    (w.perform "cache" (.ask 1 (.put again))).1 = .reply (.added (.ok false)) ∧
    (w.perform "cache" (.ask 1 (.put again))).2.tree = w.tree := by
  intro base first again
  have hready : base.Ready "cache" ["cache"] := by
    refine ⟨⟨Or.inr ?_, rfl⟩, fun p hp => ?_⟩
    · rfl
    · simp [FileTree.node?, base, Table.get?_insert, hp]
  have hkernels : ∀ i k, Action.ask i (.put k) ∈
      [Action.openStore, .openStore, .ask 0 (.put first)] ++ [.ask 1 (.put again)] →
      k = first ∨ k = again := by
    intro i k hmem
    simp at hmem
    tauto
  have hwritable : ∀ i k, Action.ask i (.put k) ∈
      [Action.openStore, .openStore, .ask 0 (.put first)] ++ [.ask 1 (.put again)] →
      Index.Writable k.provenance := by
    intro i k hmem
    rcases hkernels i k hmem with rfl | rfl <;> decide
  have hroom : ∀ before, before <+:
      [Action.openStore, .openStore, .ask 0 (.put first)] ++ [.ask 1 (.put again)] →
      ∃ h, (Ledger.run before).stored h = none := by
    intro before hbefore
    refine ⟨⟨(Store.hashOf first).value + 1⟩, Ledger.stored_run_eq_none fun i k hmem heq => ?_⟩
    have hvalue : (Store.hashOf first).value = (Store.hashOf first).value + 1 := by
      rcases hkernels i k (hbefore.subset hmem) with rfl | rfl
      · exact congrArg ContentHash.value heq
      · exact congrArg ContentHash.value heq
    simp at hvalue
  obtain ⟨hanswer, -, hsame⟩ := Shared.perform_run hready (by decide) hwritable hroom
  have hrun : Ledger.run [.openStore, .openStore, .ask 0 (.put first)] =
      Ledger.add ⟨2, fun _ => none⟩ first := rfl
  have hstored : (Ledger.add ⟨2, fun _ => none⟩ first).stored (Store.hashOf again) = some first :=
    (Ledger.stored_add _ _ _).trans (if_pos rfl)
  rw [hrun] at hanswer hsame
  have hreply : (Ledger.add ⟨2, fun _ => none⟩ first).Answers "cache" (.ask 1 (.put again))
      (.reply (.added (.ok false))) := by
    rw [Ledger.Answers, if_pos (by decide)]
    refine ⟨_, ?_, rfl⟩
    rw [Ledger.Replies, hstored]
    rfl
  have hafter : (Ledger.add ⟨2, fun _ => none⟩ first).after (.ask 1 (.put again)) =
      Ledger.add ⟨2, fun _ => none⟩ first := by
    rw [Ledger.after, if_pos (by decide), Ledger.serve, if_neg fun hadds => ?_]
    rw [hadds.2] at hstored
    cases hstored
  dsimp only
  exact ⟨hready, ((hanswer _).mp hreply).symm, hsame (by simp) hafter⟩

end KernelForge

import KernelForge.Proofs.Store.Names
import Mathlib.Data.List.Sort

/-!
# A directory shared by stores

Any number of stores may be open on one directory, each with what it knew last. The ledger is the one
map that they share: it has the kernel that was stored first for each hash. What the stores answer
is told by the ledger alone.
-/
namespace KernelForge

namespace Store

inductive Request
  | put (k : Kernel)
  | get (k : Kernel)
  | contains (k : Kernel)
  | size
  | isEmpty
  | entries
  | purge
  | clear

inductive Reply
  | added (r : Except StoreError Bool)
  | found (r : Except StoreError (Option Path))
  | present (b : Bool)
  | count (n : ℕ)
  | empty (b : Bool)
  | listed (l : List (ContentHash × Entry))
  | purged (r : Except StoreError ℕ)
  | cleared (r : Except StoreError Unit)

def serve (s : Store) : Request → StateM FileTree (Reply × Store)
  | .put k => do
    let (r, s) ← s.put k
    return (.added r, s)
  | .get k => do
    let (r, s) ← s.get k
    return (.found r, s)
  | .contains k => do
    let (b, s) ← s.contains k
    return (.present b, s)
  | .size => do
    let (n, s) ← s.size
    return (.count n, s)
  | .isEmpty => do
    let (b, s) ← s.isEmpty
    return (.empty b, s)
  | .entries => do
    let (l, s) ← s.entries
    return (.listed l, s)
  | .purge => do
    let (r, s) ← s.purge
    return (.purged r, s)
  | .clear => do
    let (r, s) ← s.clear
    return (.cleared r, s)

end Store

/-- A tree of files, and the stores that are open on one of its directories. -/
structure Shared where
  tree : FileTree
  stores : List Store

namespace Shared

inductive Action
  | openStore
  | ask (store : ℕ) (r : Store.Request)

inductive Answer
  | opened (r : Except StoreError Unit)
  | reply (y : Store.Reply)
  | noStore

def perform (dir : Path) (w : Shared) : Action → Answer × Shared
  | .openStore =>
    match (Store.openAt (.ofDir dir) : StateM FileTree _) w.tree with
    | (.error e, t) => (.opened (.error e), { w with tree := t })
    | (.ok s, t) => (.opened (.ok ()), ⟨t, w.stores ++ [s]⟩)
  | .ask i r =>
    match w.stores[i]? with
    | none => (.noStore, w)
    | some s =>
      let ((y, s), t) := s.serve r w.tree
      (.reply y, ⟨t, w.stores.set i s⟩)

def run (dir : Path) (w : Shared) (actions : List Action) : Shared :=
  actions.foldl (fun w action => (w.perform dir action).2) w

end Shared

/-- What the index says of a kernel. -/
def Kernel.entry (k : Kernel) : Entry :=
  ⟨StoreConfig.kernelFile k.role (Store.hashOf k), k.role.name, k.provenance⟩

/-- The number of stores that were opened, and the kernels that are stored. -/
structure Ledger where
  opened : ℕ
  stored : ContentHash → Option Kernel

namespace Ledger

def empty : Ledger := ⟨0, fun _ => none⟩

/-- A kernel is added if its origin is known and its hash is new. -/
def Adds (L : Ledger) (k : Kernel) : Prop := k.provenance ≠ "" ∧ L.stored (Store.hashOf k) = none

instance (L : Ledger) (k : Kernel) : Decidable (L.Adds k) := inferInstanceAs (Decidable (_ ∧ _))

def add (L : Ledger) (k : Kernel) : Ledger :=
  { L with stored := Function.update L.stored (Store.hashOf k) (some k) }

theorem stored_add (L : Ledger) (k : Kernel) (h : ContentHash) :
    (L.add k).stored h = if h = Store.hashOf k then some k else L.stored h :=
  Function.update_apply ..

def serve (L : Ledger) : Store.Request → Ledger
  | .put k => if L.Adds k then L.add k else L
  | .clear => { L with stored := fun _ => none }
  | _ => L

theorem serve_put_eq_self_iff {L : Ledger} {k : Kernel} : L.serve (.put k) = L ↔ ¬ L.Adds k := by
  constructor
  · intro hsame hadds
    rw [serve, if_pos hadds] at hsame
    have hstored := stored_add L k (Store.hashOf k)
    rw [hsame, if_pos rfl, hadds.2] at hstored
    cases hstored
  · exact fun h => if_neg h

def after (L : Ledger) : Shared.Action → Ledger
  | .openStore => { L with opened := L.opened + 1 }
  | .ask i r => if i < L.opened then L.serve r else L

def run (actions : List Shared.Action) : Ledger := actions.foldl after empty

structure Lists (L : Ledger) (l : List (ContentHash × Entry)) : Prop where
  ascends : l.Pairwise fun p q => p.1.value < q.1.value
  mem_iff : ∀ h e, (h, e) ∈ l ↔ (L.stored h).map Kernel.entry = some e

/-- What the stores in a directory reply. -/
def Replies (L : Ledger) (dir : Path) : Store.Request → Store.Reply → Prop
  | .put k, y => y = .added
      (if k.provenance = "" then .error .missingProvenance
        else .ok (L.stored (Store.hashOf k)).isNone)
  | .get k, y => y = .found
      (if k.provenance = "" then .error .missingProvenance
        else .ok ((L.stored (Store.hashOf k)).map fun k => dir.join k.entry.file))
  | .contains k, y => y = .present (L.stored (Store.hashOf k)).isSome
  | .size, y => ∃ l, L.Lists l ∧ y = .count l.length
  | .isEmpty, y => ∃ l, L.Lists l ∧ y = .empty l.isEmpty
  | .entries, y => ∃ l, L.Lists l ∧ y = .listed l
  | .purge, y => y = .purged (.ok 0)
  | .clear, y => y = .cleared (.ok ())

def Answers (L : Ledger) (dir : Path) : Shared.Action → Shared.Answer → Prop
  | .openStore, a => a = .opened (.ok ())
  | .ask i r, a => if i < L.opened then ∃ y, L.Replies dir r y ∧ a = .reply y else a = .noStore

theorem Lists.unique {L : Ledger} {l l' : List (ContentHash × Entry)} (h : L.Lists l)
    (h' : L.Lists l') : l = l' := by
  have hirrefl : Std.Irrefl fun p q : ContentHash × Entry => p.1.value < q.1.value :=
    ⟨fun p => UInt64.lt_irrefl p.1.value⟩
  have hantisymm : Std.Antisymm fun p q : ContentHash × Entry => p.1.value < q.1.value :=
    ⟨fun p q hpq hqp => absurd hqp (UInt64.lt_asymm hpq)⟩
  exact h.ascends.eq_of_mem_iff h'.ascends fun ⟨hash, e⟩ =>
    (h.mem_iff hash e).trans (h'.mem_iff hash e).symm

theorem Replies.unique {L : Ledger} {dir : Path} {r : Store.Request} {y y' : Store.Reply}
    (h : L.Replies dir r y) (h' : L.Replies dir r y') : y = y' := by
  cases r with
  | size | isEmpty | entries =>
    obtain ⟨l, hl, rfl⟩ := h
    obtain ⟨l', hl', rfl⟩ := h'
    rw [hl.unique hl']
  | _ => exact h.trans h'.symm

/-- The ledger leaves no choice of an answer. -/
theorem Answers.unique {L : Ledger} {dir : Path} {action : Shared.Action} {a a' : Shared.Answer}
    (h : L.Answers dir action a) (h' : L.Answers dir action a') : a = a' := by
  cases action with
  | openStore => exact h.trans h'.symm
  | ask i r =>
    by_cases hi : i < L.opened
    · simp only [Answers, hi, if_true] at h h'
      obtain ⟨y, hy, rfl⟩ := h
      obtain ⟨y', hy', rfl⟩ := h'
      rw [hy.unique hy']
    · simp only [Answers, hi, if_false] at h h'
      rw [h, h']

end Ledger

end KernelForge

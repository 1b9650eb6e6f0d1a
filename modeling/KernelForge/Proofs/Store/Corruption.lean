import KernelForge.Proofs.Store.Encoding
import KernelForge.Proofs.Store.Overwriting
import KernelForge.Proofs.Store.Purging

/-!
# A corrupt index

While the bytes of the index file are not those of an index no store changes anything, and each
answers from what it knew last. Once the file holds an index again nothing tells what happened in
between. A lock file that is missing is made by the first store that takes the lock, and this is all
that may be different afterwards.
-/
namespace KernelForge

open FileTree

namespace StoreConfig

variable {c : StoreConfig} {t t₁ t' : FileTree} {fault : Index.Fault}

/-- A store is open, or may be: its directory is there, and the lock can be taken. -/
structure IsOpen (c : StoreConfig) (t : FileTree) : Prop where
  directory : ∃ place, t.Opens c.dir place
  lock : ∃ place, t.LeadsTo c.lockPath place

theorem IsOpen.changes {may : List String → Option FileNode → Prop} (h : c.IsOpen t)
    (hch : t.Changes may t') : c.IsOpen t' := by
  obtain ⟨⟨place, hplace⟩, lock, hlock⟩ := h
  exact ⟨⟨place, hch.opens hplace⟩, lock, hch.leadsTo_iff.mpr hlock⟩

/-- After a store was opened it is open. -/
theorem isOpen_of_openAt {s : Store} (h : (Store.openAt c : StateM FileTree _) t = (.ok s, t')) :
    s.config = c ∧ c.IsOpen t' ∧ c.HasLock t' := by
  rw [Store.openAt, bind_apply] at h
  generalize hmake : (Files.makeDirs c.dir : StateM FileTree _) t = made at h
  obtain ⟨_ | _, t₁⟩ := made
  · cases h
  · obtain ⟨place, hplace⟩ := opens_of_makeDirs hmake
    dsimp only at h
    rw [bind_apply] at h
    cases htouch : t₁.touch c.lockPath with
    | error e =>
      simp only [Files.locked, htouch] at h
      cases h
    | ok t₂ =>
      rw [locked_apply false c.load htouch, load_tree] at h
      obtain ⟨lock, hlock, -, hch⟩ := changes_of_touch htouch
      cases hload : ((c.load : StateM FileTree _) t₂).1 with
      | error e =>
        rw [hload] at h
        cases h
      | ok entries =>
        rw [hload] at h
        obtain ⟨hs, rfl⟩ := Prod.mk.inj h
        obtain rfl := Except.ok.inj hs
        exact ⟨rfl, ⟨⟨place, hch.opens hplace⟩, lock, hch.leadsTo_iff.mpr hlock⟩,
          hasLock_of_touch htouch⟩

/-- The index is not its own lock. -/
theorem index_ne_lock {place : List String} (h : t.LeadsTo c.indexPath place) :
    ¬ t.LeadsTo c.lockPath place := by
  intro hlock
  obtain ⟨name, hname⟩ := h.endsIn
  have hlast := hname.getLast?_of_locate h.locate
  have hends : (c.indexPath ++ ".lock").EndsIn (name ++ ".lock") :=
    hname.append (by decide) (by decide)
  have hlast' := hends.getLast?_of_locate (lockPath_eq c ▸ hlock.locate)
  rw [hlast] at hlast'
  have hlen := congrArg (fun s => s.toList.length) (Option.some.inj hlast')
  simp at hlen

/-- The directory has an index file whose bytes are not those of an index. -/
structure IsCorrupt (c : StoreConfig) (t : FileTree) (fault : Index.Fault) : Prop where
  isOpen : c.IsOpen t
  index : ∃ bytes, t.read c.indexPath = .ok bytes ∧ Index.decode bytes = .error fault

theorem IsCorrupt.touch (h : c.IsCorrupt t fault) (htouch : t.touch c.lockPath = .ok t₁) :
    c.IsCorrupt t₁ fault := by
  obtain ⟨hopen, bytes, hread, hdecode⟩ := h
  obtain ⟨lock, -, -, hch⟩ := changes_of_touch htouch
  obtain ⟨name, hname⟩ := hopen.lock.choose_spec.endsIn
  exact ⟨hopen.changes hch, bytes, read_touch hname htouch hread, hdecode⟩

theorem IsCorrupt.load (h : c.IsCorrupt t fault) :
    (c.load : StateM FileTree _) t = (.error (.corrupt fault), t) := by
  obtain ⟨-, bytes, hread, hdecode⟩ := h
  exact Prod.ext ((load_eq_corrupt_iff hread).mpr hdecode) (load_tree c t)

/-- With the lock in place taking it does nothing. -/
theorem locked_of_touch {α : Type} (exclusive : Bool) (action : StateM FileTree α)
    (htouch : t.touch c.lockPath = .ok t₁) :
    (Files.locked c.lockPath exclusive action : StateM FileTree _) t =
      (Files.locked c.lockPath exclusive action : StateM FileTree _) t₁ := by
  rw [locked_apply exclusive action htouch,
    locked_apply exclusive action (hasLock_of_touch htouch).touch]

end StoreConfig

namespace Store

open StoreConfig

variable {s : Store} {t t₁ : FileTree} {fault : Index.Fault}

/-! ## Requests under the lock -/

/-- Whether the lock is taken for a request. A kernel without provenance is refused before. -/
def Request.Locks : Request → Prop
  | .put k | .get k => k.provenance ≠ ""
  | _ => True

/-- What a store replies that cannot read the index. It answers from what it knows, and a change
fails. -/
def replyFrom (s : Store) (t : FileTree) (fault : Index.Fault) : Request → Reply
  | .put k => .added (.error (if k.provenance = "" then .missingProvenance else .corrupt fault))
  | .get k => .found
      (if k.provenance = "" then .error .missingProvenance
        else .ok (((s.known.get? (hashOf k)).map fun e => s.config.filePath e.file).filter
          (t.isFile ·)))
  | .contains k => .present (s.known.contains (hashOf k))
  | .size => .count s.known.size
  | .isEmpty => .empty s.known.isEmpty
  | .entries => .listed (s.known.toList.mergeSort fun a b => a.1.value ≤ b.1.value)
  | .purge => .purged (.error (.corrupt fault))
  | .clear => .cleared (.error (.corrupt fault))

section

variable {α : Type} (body : Entries → StateM FileTree (Except StoreError α × Entries))
  (htouch : t.touch s.config.lockPath = .ok t₁)
include htouch

theorem refresh_of_touch : (s.refresh : StateM FileTree _) t = (s.refresh : StateM FileTree _) t₁ := by
  rw [refresh, bind_apply, bind_apply, locked_of_touch false _ htouch]

theorem change_of_touch : s.change body t = s.change body t₁ := by
  rw [change_eq, bind_apply, bind_apply, locked_of_touch true _ htouch]

variable (hcorrupt : s.config.IsCorrupt t fault)
include hcorrupt

theorem refresh_of_corrupt : (s.refresh : StateM FileTree _) t = (s, t₁) := by
  rw [refresh, bind_apply, locked_apply false _ htouch, (hcorrupt.touch htouch).load]
  rfl

theorem change_of_corrupt : s.change body t = ((.error (.corrupt fault), s), t₁) := by
  rw [change_eq, bind_apply, locked_apply true _ htouch]
  dsimp only
  rw [pure_apply, lockedSteps, bind_apply, (hcorrupt.touch htouch).load]
  rfl

end

theorem serve_unlocked {r : Request} (h : ¬ r.Locks) (s : Store) (t t₁ : FileTree)
    (fault : Index.Fault) : s.serve r t = ((s.replyFrom t₁ fault r, s), t) := by
  cases r with
  | put k =>
    have horigin : k.provenance = "" := not_not.mp h
    rw [serve, bind_apply, put, if_pos (by simpa using horigin), replyFrom, if_pos horigin]
    rfl
  | get k =>
    have horigin : k.provenance = "" := not_not.mp h
    rw [serve, bind_apply, get, if_pos (by simpa using horigin), replyFrom, if_pos horigin]
    rfl
  | _ => exact absurd trivial h

/-- A request for which the lock is taken is served in the same way if the lock file was missing. -/
theorem serve_of_touch {r : Request} (h : r.Locks) (htouch : t.touch s.config.lockPath = .ok t₁) :
    s.serve r t = s.serve r t₁ := by
  have hrefresh := refresh_of_touch htouch
  cases r with
  | put k =>
    have horigin : k.provenance ≠ "" := h
    rw [serve, bind_apply, bind_apply, put, if_neg (by simpa using horigin),
      change_of_touch _ htouch]
  | get k =>
    have horigin : k.provenance ≠ "" := h
    have hget : (s.get k : StateM FileTree _) t = (s.get k : StateM FileTree _) t₁ := by
      rw [get, if_neg (by simpa using horigin), bind_apply, bind_apply, hrefresh]
    rw [serve, bind_apply, bind_apply, hget]
  | contains k => rw [serve, contains, bind_apply, bind_apply, bind_apply, bind_apply, hrefresh]
  | size => rw [serve, size, bind_apply, bind_apply, bind_apply, bind_apply, hrefresh]
  | isEmpty => rw [serve, isEmpty, bind_apply, bind_apply, bind_apply, bind_apply, hrefresh]
  | entries => rw [serve, entries, bind_apply, bind_apply, bind_apply, bind_apply, hrefresh]
  | purge => rw [serve, purge, bind_apply, bind_apply, change_of_touch _ htouch]
  | clear => rw [serve, clear, bind_apply, bind_apply, change_of_touch _ htouch]

theorem serve_of_corrupt {r : Request} (h : r.Locks)
    (htouch : t.touch s.config.lockPath = .ok t₁) (hcorrupt : s.config.IsCorrupt t fault) :
    s.serve r t = ((s.replyFrom t₁ fault r, s), t₁) := by
  have hrefresh := refresh_of_corrupt htouch hcorrupt
  cases r with
  | put k =>
    have horigin : k.provenance ≠ "" := h
    rw [serve, bind_apply, put, if_neg (by simpa using horigin),
      change_of_corrupt _ htouch hcorrupt, replyFrom, if_neg horigin]
    rfl
  | get k =>
    have horigin : k.provenance ≠ "" := h
    rw [serve, bind_apply, get, if_neg (by simpa using horigin), bind_apply, hrefresh, replyFrom,
      if_neg horigin]
    dsimp only
    cases s.known.get? (hashOf k) with
    | none => rfl
    | some e =>
      have hfile : (Files.isFile (s.config.filePath e.file) : StateM FileTree _) t₁ =
          (t₁.isFile (s.config.filePath e.file), t₁) := rfl
      dsimp only
      rw [bind_apply, hfile]
      cases hanswer : t₁.isFile (s.config.filePath e.file) <;> simp [hanswer, Option.filter] <;> rfl
  | contains k => rw [serve, contains, bind_apply, bind_apply, hrefresh]; rfl
  | size => rw [serve, size, bind_apply, bind_apply, hrefresh]; rfl
  | isEmpty => rw [serve, isEmpty, bind_apply, bind_apply, hrefresh]; rfl
  | entries => rw [serve, entries, bind_apply, bind_apply, hrefresh]; rfl
  | purge => rw [serve, purge, bind_apply, change_of_corrupt _ htouch hcorrupt]; rfl
  | clear => rw [serve, clear, bind_apply, change_of_corrupt _ htouch hcorrupt]; rfl

section

variable {c : StoreConfig} (htouch : t.touch c.lockPath = .ok t₁)
include htouch

theorem openAt_of_touch (h : c.IsOpen t) :
    (openAt c : StateM FileTree _) t = (openAt c : StateM FileTree _) t₁ := by
  obtain ⟨⟨place, hplace⟩, -⟩ := h
  obtain ⟨lock, -, -, hch⟩ := changes_of_touch htouch
  rw [openAt, bind_apply, bind_apply, hplace.makeDirs_apply, (hch.opens hplace).makeDirs_apply]
  dsimp only
  rw [bind_apply, bind_apply, locked_of_touch false _ htouch]

theorem openAt_of_corrupt (h : c.IsCorrupt t fault) :
    (openAt c : StateM FileTree _) t = (.error (.corrupt fault), t₁) := by
  obtain ⟨place, hplace⟩ := h.isOpen.directory
  rw [openAt, bind_apply, hplace.makeDirs_apply]
  dsimp only
  rw [bind_apply, locked_apply false _ htouch, (h.touch htouch).load]
  rfl

end

end Store

namespace Shared

open StoreConfig Store

/-! ## Stores of a configuration -/

/-- Like `perform`, for stores of any configuration. -/
def performWith (c : StoreConfig) (w : Shared) : Action → Answer × Shared
  | .openStore =>
    match (Store.openAt c : StateM FileTree _) w.tree with
    | (.error e, t) => (.opened (.error e), { w with tree := t })
    | (.ok s, t) => (.opened (.ok ()), ⟨t, w.stores ++ [s]⟩)
  | .ask i r =>
    match w.stores[i]? with
    | none => (.noStore, w)
    | some s =>
      let ((y, s), t) := s.serve r w.tree
      (.reply y, ⟨t, w.stores.set i s⟩)

def runWith (c : StoreConfig) (w : Shared) (actions : List Action) : Shared :=
  actions.foldl (fun w action => (w.performWith c action).2) w

/-- The answers of a run. -/
def answersWith (c : StoreConfig) : Shared → List Action → List Answer
  | _, [] => []
  | w, action :: rest =>
    (w.performWith c action).1 :: answersWith c (w.performWith c action).2 rest

/-- Somebody else writes the index file. -/
def writeIndex (c : StoreConfig) (w : Shared) (bytes : List UInt8) : Except FileError Shared :=
  (w.tree.write c.indexPath bytes).map fun t => { w with tree := t }

variable {c : StoreConfig} {w w' : Shared} {t₁ : FileTree} {fault : Index.Fault}

theorem writeIndex_eq_ok_iff {bytes : List UInt8} : w.writeIndex c bytes = .ok w' ↔
    w.tree.write c.indexPath bytes = .ok w'.tree ∧ w'.stores = w.stores := by
  unfold writeIndex
  cases w.tree.write c.indexPath bytes with
  | error e => simp [Except.map]
  | ok t =>
    simp only [Except.map, Except.ok.injEq]
    constructor
    · rintro rfl
      exact ⟨rfl, rfl⟩
    · rintro ⟨rfl, hstores⟩
      rw [← hstores]

/-! ## Missing locks -/

/-- The worlds are the same, but that the lock file may be missing in the first one. -/
inductive SameBut (c : StoreConfig) (w : Shared) : Shared → Prop
  | refl : SameBut c w w
  | lock {t₁ : FileTree} (isOpen : c.IsOpen w.tree)
      (configs : ∀ s ∈ w.stores, s.config = c) (touch : w.tree.touch c.lockPath = .ok t₁) :
      SameBut c w ⟨t₁, w.stores⟩

theorem set_of_getElem? {s : Store} {i : ℕ} (h : w.stores[i]? = some s) :
    w.stores.set i s = w.stores := by
  rw [← List.getElem_of_getElem? h |>.choose_spec, List.set_getElem_self]

/-- What differs by the lock file alone answers in the same way and stays so. -/
theorem SameBut.performWith (h : w.SameBut c w') (action : Action) :
    (w'.performWith c action).1 = (w.performWith c action).1 ∧
      (w.performWith c action).2.SameBut c (w'.performWith c action).2 := by
  cases h with
  | refl => exact ⟨rfl, .refl⟩
  | lock hopen hconfigs htouch =>
    cases action with
    | openStore =>
      rw [Shared.performWith, Shared.performWith, openAt_of_touch htouch hopen]
      generalize (Store.openAt c : StateM FileTree _) _ = opened
      obtain ⟨_ | _, t⟩ := opened <;> exact ⟨rfl, .refl⟩
    | ask i r =>
      rw [Shared.performWith, Shared.performWith]
      dsimp only
      cases hs : w.stores[i]? with
      | none => exact ⟨rfl, .lock hopen hconfigs htouch⟩
      | some s =>
        have hconfig := hconfigs s (List.mem_of_getElem? hs)
        dsimp only
        by_cases hr : r.Locks
        · have hserve := serve_of_touch hr (hconfig.symm ▸ htouch)
          rw [hserve]
          exact ⟨rfl, .refl⟩
        · rw [serve_unlocked hr s w.tree w.tree .endInNumber,
            serve_unlocked hr s _ w.tree .endInNumber]
          dsimp only
          rw [set_of_getElem? hs]
          exact ⟨rfl, .lock hopen hconfigs htouch⟩

theorem SameBut.runWith (h : w.SameBut c w') (actions : List Action) :
    w'.answersWith c actions = w.answersWith c actions ∧
      (w.runWith c actions).SameBut c (w'.runWith c actions) := by
  induction actions generalizing w w' with
  | nil => exact ⟨rfl, h⟩
  | cons action rest ih =>
    obtain ⟨hanswer, hafter⟩ := h.performWith action
    obtain ⟨hanswers, hrun⟩ := ih hafter
    exact ⟨by rw [answersWith, answersWith, hanswer, hanswers], hrun⟩

/-- Nothing is different but that the lock file, which was missing, may have been made. -/
structure Spared (c : StoreConfig) (w w' : Shared) : Prop where
  stores : w'.stores = w.stores
  files : w.tree.Changes (fun p node => w.tree.LeadsTo c.lockPath p ∧ w.tree.node? p = none ∧
    node = some (.file [])) w'.tree
  reads : ∀ path bytes, w.tree.read path = .ok bytes → w'.tree.read path = .ok bytes
  same : c.HasLock w.tree → w' = w

theorem SameBut.spared (h : w.SameBut c w') : w.Spared c w' := by
  cases h with
  | refl => exact ⟨rfl, .refl, fun _ _ hread => hread, fun _ => rfl⟩
  | lock hopen _ htouch =>
    obtain ⟨lock, hlock, -, hch⟩ := changes_of_touch htouch
    obtain ⟨name, hname⟩ := hlock.endsIn
    refine ⟨rfl, hch.mono ?_, fun _ _ => read_touch hname htouch, fun hthere => ?_⟩
    · rintro p node ⟨rfl, hnone, hnode⟩
      exact ⟨hlock, hnone, hnode⟩
    · obtain rfl := Except.ok.inj (hthere.touch.symm.trans htouch)
      rfl

/-! ## While the index is corrupt -/

/-- What is answered while the index is corrupt. -/
def answerFrom (w : Shared) (t : FileTree) (fault : Index.Fault) : Action → Answer
  | .openStore => .opened (.error (.corrupt fault))
  | .ask i r =>
    match w.stores[i]? with
    | none => .noStore
    | some s => .reply (s.replyFrom t fault r)

section

variable (hcorrupt : c.IsCorrupt w.tree fault) (hconfigs : ∀ s ∈ w.stores, s.config = c)
include hcorrupt hconfigs

theorem performWith_of_corrupt (htouch : w.tree.touch c.lockPath = .ok t₁) (action : Action) :
    (w.performWith c action).1 = w.answerFrom t₁ fault action ∧
      w.SameBut c (w.performWith c action).2 := by
  cases action with
  | openStore =>
    rw [performWith, openAt_of_corrupt htouch hcorrupt]
    exact ⟨rfl, .lock hcorrupt.isOpen hconfigs htouch⟩
  | ask i r =>
    rw [performWith, answerFrom]
    cases hs : w.stores[i]? with
    | none => exact ⟨rfl, .refl⟩
    | some s =>
      obtain rfl := hconfigs s (List.mem_of_getElem? hs)
      dsimp only
      by_cases hr : r.Locks
      · rw [serve_of_corrupt hr htouch hcorrupt]
        dsimp only
        rw [set_of_getElem? hs]
        exact ⟨rfl, .lock hcorrupt.isOpen hconfigs htouch⟩
      · rw [serve_unlocked hr s w.tree t₁ fault]
        dsimp only
        rw [set_of_getElem? hs]
        exact ⟨rfl, .refl⟩

/-- Whatever is attempted while the index is corrupt, the next answer is given from what was known
before. -/
theorem runWith_of_corrupt (htouch : w.tree.touch c.lockPath = .ok t₁) (attempts : List Action) :
    w.SameBut c (w.runWith c attempts) ∧ ∀ action,
      ((w.runWith c attempts).performWith c action).1 = w.answerFrom t₁ fault action := by
  have hnext : ∀ w', w.SameBut c w' → ∀ action,
      (w'.performWith c action).1 = w.answerFrom t₁ fault action ∧
        w.SameBut c (w'.performWith c action).2 := by
    intro w' hw' action
    cases hw' with
    | refl => exact performWith_of_corrupt hcorrupt hconfigs htouch action
    | lock _ _ htouch' =>
      obtain rfl := Except.ok.inj (htouch.symm.trans htouch')
      have hlock := hasLock_of_touch htouch
      obtain ⟨hanswer, hsame⟩ := performWith_of_corrupt (w := ⟨t₁, w.stores⟩)
        (hcorrupt.touch htouch) hconfigs hlock.touch action
      refine ⟨hanswer, ?_⟩
      rw [hsame.spared.same hlock]
      exact .lock hcorrupt.isOpen hconfigs htouch
  have hrun : w.SameBut c (w.runWith c attempts) := by
    induction attempts using List.reverseRecOn with
    | nil => exact .refl
    | append_singleton before action ih =>
      rw [runWith, List.foldl_append]
      exact (hnext _ ih action).2
  exact ⟨hrun, fun action => (hnext _ hrun action).1⟩

/-- Once the index is written again it does not matter whether anything was attempted before. -/
theorem exists_writeIndex (hw' : w.SameBut c w') (bytes : List UInt8) :
    ∃ w₁ w₂, w.writeIndex c bytes = .ok w₁ ∧ w'.writeIndex c bytes = .ok w₂ ∧
      w₁.SameBut c w₂ := by
  obtain ⟨bad, hread, -⟩ := hcorrupt.index
  obtain ⟨place, hplace, -⟩ := leadsTo_of_read hread
  cases hw' with
  | refl =>
    have hwrite : w.writeIndex c bytes =
        .ok ⟨⟨w.tree.nodes.insert place (.file bytes)⟩, w.stores⟩ :=
      writeIndex_eq_ok_iff.mpr ⟨write_of_leadsTo hplace bytes, rfl⟩
    exact ⟨_, _, hwrite, hwrite, .refl⟩
  | lock _ _ htouch =>
    obtain ⟨t', t₁', hwrite, hwrite₁, htouch'⟩ :=
      write_of_touch (fun _ => index_ne_lock) hread htouch bytes
    exact ⟨⟨t', w.stores⟩, ⟨t₁', w.stores⟩, writeIndex_eq_ok_iff.mpr ⟨hwrite, rfl⟩,
      writeIndex_eq_ok_iff.mpr ⟨hwrite₁, rfl⟩,
      .lock (hcorrupt.isOpen.changes (changes_of_write hwrite)) hconfigs htouch'⟩

end

/-- Somebody else writes bytes to the index file that are not those of an index, while stores are
open that know what they know. Whatever is attempted then, no store is opened and none changes what
it knows, the index file or any other file that is there: each answers from what it knows, or that
the index is corrupt. Once the index file is written again everything goes on as if this had been
done at once, and if the file has its old bytes again as if nothing had happened. -/
theorem run_of_corrupt {w₀ : Shared} {bad : List UInt8} (hopen : c.IsOpen w₀.tree)
    (hconfigs : ∀ s ∈ w₀.stores, s.config = c) (hbad : Index.decode bad = .error fault)
    (hwrite : w₀.writeIndex c bad = .ok w) :
    ∃ locked, w.tree.touch c.lockPath = .ok locked ∧ ∀ attempts,
      w.Spared c (w.runWith c attempts) ∧
      (∀ action,
        ((w.runWith c attempts).performWith c action).1 = w₀.answerFrom locked fault action) ∧
      ∀ good, ∃ w₁ w₂, w₀.writeIndex c good = .ok w₁ ∧
        (w.runWith c attempts).writeIndex c good = .ok w₂ ∧
        (w₀.tree.read c.indexPath = .ok good → w₁ = w₀) ∧
        ∀ later, w₂.answersWith c later = w₁.answersWith c later ∧
          (w₁.runWith c later).Spared c (w₂.runWith c later) := by
  obtain ⟨htree, hstores⟩ := writeIndex_eq_ok_iff.mp hwrite
  have hcorrupt : c.IsCorrupt w.tree fault :=
    ⟨hopen.changes (changes_of_write htree), bad, read_of_write htree, hbad⟩
  have hconfigs' : ∀ s ∈ w.stores, s.config = c := hstores ▸ hconfigs
  obtain ⟨lock, hlock⟩ := hcorrupt.isOpen.lock
  obtain ⟨locked, htouch⟩ := exists_touch hlock
  refine ⟨locked, htouch, fun attempts => ?_⟩
  obtain ⟨hsame, hanswer⟩ := runWith_of_corrupt hcorrupt hconfigs' htouch attempts
  refine ⟨hsame.spared, fun action => ?_, fun good => ?_⟩
  · rw [hanswer]
    simp only [answerFrom, hstores]
  · obtain ⟨w₁, w₂, hw₁, hw₂, hafter⟩ := exists_writeIndex hcorrupt hconfigs' hsame good
    obtain ⟨hwrite₁, hstores₁⟩ := writeIndex_eq_ok_iff.mp hw₁
    rw [write_of_write htree] at hwrite₁
    have hfirst := writeIndex_eq_ok_iff.mpr ⟨hwrite₁, hstores₁.trans hstores⟩
    refine ⟨w₁, w₂, hfirst, hw₂, fun hread => ?_, fun later => ?_⟩
    · have hback := writeIndex_eq_ok_iff.mpr ⟨write_of_read hread, rfl⟩
      exact Except.ok.inj (hfirst.symm.trans hback)
    · obtain ⟨hanswers, hrun⟩ := hafter.runWith later
      exact ⟨hanswers, hrun.spared⟩

/-- A store that knows of a kernel, in a directory that has neither an index nor a lock. -/
def bare : Shared := ⟨emptyDir, [⟨ofDir "c", Table.empty.insert ⟨7⟩ ⟨"k.cpp", "brisc", "k"⟩⟩]⟩

theorem run_of_corrupt_bare :
    ∃ w locked, bare.writeIndex (ofDir "c") [0xff] = .ok w ∧
      w.tree.touch (ofDir "c").lockPath = .ok locked ∧ ∀ attempts,
      w.Spared (ofDir "c") (w.runWith (ofDir "c") attempts) ∧
      (∀ action, ((w.runWith (ofDir "c") attempts).performWith (ofDir "c") action).1 =
        bare.answerFrom locked .endInNumber action) ∧
      ∀ good, ∃ w₁ w₂, bare.writeIndex (ofDir "c") good = .ok w₁ ∧
        (w.runWith (ofDir "c") attempts).writeIndex (ofDir "c") good = .ok w₂ ∧
        (bare.tree.read (ofDir "c").indexPath = .ok good → w₁ = bare) ∧
        ∀ later, w₂.answersWith (ofDir "c") later = w₁.answersWith (ofDir "c") later ∧
          (w₁.runWith (ofDir "c") later).Spared (ofDir "c") (w₂.runWith (ofDir "c") later) := by
  have hopen : (ofDir "c").IsOpen emptyDir :=
    ⟨⟨["c"], ready_emptyDir.opens⟩, ["c", lockFile], by decide +kernel, by decide +kernel⟩
  have hindex : emptyDir.LeadsTo (ofDir "c").indexPath ["c", indexFile] :=
    ⟨by decide +kernel, by decide +kernel⟩
  have hwrite : bare.writeIndex (ofDir "c") [0xff] =
      .ok ⟨⟨emptyDir.nodes.insert ["c", indexFile] (.file [0xff])⟩, bare.stores⟩ :=
    writeIndex_eq_ok_iff.mpr ⟨write_of_leadsTo hindex [0xff], rfl⟩
  have hconfigs : ∀ s ∈ bare.stores, s.config = ofDir "c" := by
    intro s hs
    rw [List.mem_singleton.mp hs]
  have hbad : Index.decode [0xff] = .error .endInNumber := rfl
  obtain ⟨locked, hlocked, hrun⟩ := run_of_corrupt hopen hconfigs hbad hwrite
  exact ⟨_, locked, hwrite, hlocked, hrun⟩

end Shared

end KernelForge

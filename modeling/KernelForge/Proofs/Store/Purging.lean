import KernelForge.Proofs.Store.Histories

/-!
# Purging a directory

A purge that succeeds takes out what is stale and nothing else. What it leaves is not stale, so that
the next purge has nothing to do, and what it took out can be put again.
-/
namespace KernelForge

open FileTree

namespace StoreConfig

variable {c : StoreConfig} {place : List String} {t t₁ t' : FileTree} {entries kept : Entries}

/-! ## The lock -/

/-- The lock file is there. -/
def HasLock (c : StoreConfig) (t : FileTree) : Prop :=
  ∃ q, t.LeadsTo c.lockPath q ∧ t.node? q ≠ none

theorem hasLock_of_touch (h : t.touch c.lockPath = .ok t₁) : c.HasLock t₁ := by
  obtain ⟨q, hq, hnode, hch⟩ := changes_of_touch h
  exact ⟨q, hch.leadsTo_iff.mpr hq, Option.isSome_iff_ne_none.mp hnode⟩

theorem HasLock.touch (h : c.HasLock t) : t.touch c.lockPath = .ok t := by
  obtain ⟨q, hq, hnode⟩ := h
  exact touch_of_isSome hq (Option.isSome_iff_ne_none.mpr hnode)

theorem HasLock.changes {may : List String → Option FileNode → Prop} (h : c.HasLock t)
    (hch : t.Changes may t')
    (hmay : ∀ q, t.LeadsTo c.lockPath q → may q (t'.node? q) → t'.node? q ≠ none) :
    c.HasLock t' := by
  obtain ⟨q, hq, hnode⟩ := h
  refine ⟨q, hch.leadsTo_iff.mpr hq, ?_⟩
  rcases hch.node q with heq | hchanged
  · rwa [heq]
  · exact hmay q hq hchanged

theorem HasLock.saved (h : c.HasLock t) (hsaved : c.Saved t entries t') : c.HasLock t' := by
  refine h.changes hsaved.changes fun q _ hnew => ?_
  rw [hnew.2]
  simp

theorem HasLock.stored? (h : c.HasLock t)
    (hload : ((c.load : StateM FileTree _) t).1 = .ok entries) : c.stored? t = some entries := by
  rw [stored?_of_touch h.touch, hload]
  rfl

/-! ## Files of entries -/

theorem intact_congr {h : ContentHash} {e : Entry}
    (hfind : t'.find (c.filePath e.file) = t.find (c.filePath e.file)) :
    c.Intact t' h e ↔ c.Intact t h e := by
  rw [Intact, Intact, FileTree.read, FileTree.read, hfind]

/-- A change that spares the kernel files of a hash spares the file of an entry. -/
theorem Recorded.find_eq {may : List String → Option FileNode → Prop} {h : ContentHash} {e : Entry}
    (hrec : c.Recorded t h e) (hch : t.Changes may t')
    (hmay : ∀ role p, t.LeadsTo (c.kernelPath role h) p → ¬ may p (t'.node? p)) :
    t'.find (c.filePath e.file) = t.find (c.filePath e.file) := by
  obtain ⟨role, hrole⟩ := hrec.path
  obtain ⟨q, hq⟩ := hrec.leads
  exact hch.find_eq hq (hmay role q (hrole ▸ hq))

theorem Recorded.find_touch (hc : c.Separate) {h : ContentHash} {e : Entry}
    (hrec : c.Recorded t₁ h e) (htouch : t.touch c.lockPath = .ok t₁) :
    t₁.find (c.filePath e.file) = t.find (c.filePath e.file) := by
  obtain ⟨q, hq, -, hch⟩ := changes_of_touch htouch
  obtain ⟨role, hrole⟩ := hrec.path
  obtain ⟨p, hp₁⟩ := hrec.leads
  have hp := hch.leadsTo_iff.mp hp₁
  exact hch.find_eq hp fun hmay => hc.lock ⟨t, p, hrole ▸ hp, hmay.1 ▸ hq⟩

theorem Recorded.find_saved (hc : c.Separate) {h : ContentHash} {e : Entry}
    (hrec : c.Recorded t h e) (hsaved : c.Saved t entries t') :
    t'.find (c.filePath e.file) = t.find (c.filePath e.file) :=
  hrec.find_eq hsaved.changes fun _ p hp hmay => hc.index ⟨t, p, hp, hmay.1⟩

end StoreConfig

namespace Store

open StoreConfig

variable {c : StoreConfig} {place : List String} {t t₁ t₂ t' : FileTree} {entries kept : Entries}

/-! ## Purging again -/

/-- Where nothing is stale a purge does nothing. -/
theorem purge_of_intact (hlock : c.HasLock t)
    (hload : ((c.load : StateM FileTree _) t).1 = .ok entries)
    (hintact : ∀ h e, entries.get? h = some e → c.Intact t h e) (known : Entries) :
    ((⟨c, known⟩ : Store).purge : StateM FileTree _) t = ((.ok 0, ⟨c, entries⟩), t) := by
  have hstale : c.stale t entries = [] := by
    refine List.eq_nil_iff_forall_not_mem.mpr ?_
    rintro ⟨h, e⟩ hmem
    obtain ⟨hget, hnot⟩ := mem_stale.mp hmem
    exact hnot (hintact h e hget)
  rw [purge, change_of_load (s := ⟨c, known⟩) hlock.touch hload, purgeEntries_of_fresh hstale]

/-! ## Putting again -/

/-- A new kernel is put where its file and the index can be, and it is found then. -/
theorem put_of_replaces (hc : c.Separate) (hlock : c.HasLock t)
    (hload : ((c.load : StateM FileTree _) t).1 = .ok entries) {k : Kernel}
    (horigin : k.provenance ≠ "") (hnew : entries.get? (hashOf k) = none)
    (hsize : (entries.insert (hashOf k) (c.entryOf k)).size < 2 ^ 64)
    (hwritable : (c.entryOf k).Writable) {q : List String}
    (hq : t.LeadsTo (c.filePath (c.entryOf k).file) q) (hreplaces : t.Replaces c.dir c.indexPath)
    (known : Entries) :
    ∃ s t', ((⟨c, known⟩ : Store).put k : StateM FileTree _) t = ((.ok true, s), t') ∧
      t'.read (c.filePath (c.entryOf k).file) = .ok (Text.Utf8.bytes k.source) ∧
      ∀ known, (((⟨c, known⟩ : Store).get k : StateM FileTree _) t').1.1 =
        .ok (some (c.filePath (c.entryOf k).file)) := by
  have hkernel : t.LeadsTo (c.kernelPath k.role (hashOf k)) q := hq
  rcases addKernel_cases c k hnew t with ⟨hnot, -⟩ | ⟨q', t₁, hq', hnode, hsaving⟩
  · obtain ⟨temp, -, htemp, -⟩ := hreplaces
    exact absurd ⟨temp, q, htemp, hq⟩ hnot
  · obtain rfl := hq.unique hq'
    have hch := changes_of_update hq.file (by simp) hnode
    -- the kernel file is no temporary file
    have hreplaces₁ : t₁.Replaces c.dir c.indexPath := by
      refine hreplaces.changes hch fun n p hp => ?_
      have hother : p ≠ q := by
        rintro rfl
        exact hc.temp ⟨t, p, hkernel, hp, hq.file⟩
      rw [hnode, Function.update_of_ne hother]
    rcases hsaving with ⟨hnot, -⟩ | ⟨t', hadd, hsaved⟩
    · exact absurd hreplaces₁ hnot
    · have hput : ((⟨c, known⟩ : Store).put k : StateM FileTree _) t =
          ((.ok true, ⟨c, entries.insert (hashOf k) (c.entryOf k)⟩), t') := by
        rw [put, if_neg (by simpa using horigin),
          change_of_load (s := ⟨c, known⟩) hlock.touch hload, hadd]
      have hlock₁ : c.HasLock t₁ := by
        refine hlock.changes hch fun p _ hp => ?_
        rw [hp.2]
        simp
      have hlock' := hlock₁.saved hsaved
      have hstored := hlock'.stored? (hsaved.load hsize (writable_of_insert hwritable hload).2)
      have hread : t'.read (c.filePath (c.entryOf k).file) = .ok (Text.Utf8.bytes k.source) := by
        refine (hsaved.changes.read_eq_ok_iff fun p hp hmay => ?_).mpr ?_
        · exact hc.index ⟨t₁, p, hp, hmay.1⟩
        · refine read_of_node (hch.leadsTo_iff.mpr hq).locate ?_
          rw [hnode, Function.update_self]
      refine ⟨_, t', hput, hread, fun known => ?_⟩
      have hget : (entries.insert (hashOf k) (c.entryOf k)).get? (hashOf k) =
          some (c.entryOf k) := by
        rw [Table.get?_insert, if_pos rfl]
      obtain ⟨t₂, htouch, hanswer⟩ := get_apply hstored horigin hget known
      obtain rfl := Except.ok.inj (hlock'.touch.symm.trans htouch)
      obtain ⟨p, hp, hfile⟩ := leadsTo_of_read hread
      rw [hanswer, isFile, hp.find, hfile]
      rfl

/-- A kernel whose file takes the last free name of a temporary file is not put: there is none left
for the index. -/
theorem put_of_last_temp (hlock : c.HasLock t)
    (hload : ((c.load : StateM FileTree _) t).1 = .ok entries) {k : Kernel}
    (hnew : entries.get? (hashOf k) = none) {q : List String}
    (hq : t.LeadsTo (c.filePath (c.entryOf k).file) q)
    (hlast : ∀ n p, t.locate (c.dir.join (tempName n)) = .ok p → t.node? p = none → p = q)
    (known : Entries) : (((⟨c, known⟩ : Store).put k : StateM FileTree _) t).1.1 ≠ .ok true := by
  rw [put]
  split_ifs with horigin
  · intro herror
    cases herror
  · rw [change_of_load (s := ⟨c, known⟩) hlock.touch hload]
    rcases addKernel_cases c k hnew t with ⟨-, e, t', hadd, -⟩ | ⟨q', t₁, hq', hnode, hsaving⟩
    · simp [hadd]
    · obtain rfl := hq.unique hq'
      have hnot : ¬ t₁.Replaces c.dir c.indexPath := by
        rintro ⟨p, -, hp, -⟩
        obtain ⟨n, hn, -⟩ := t₁.freshName_spec c.dir
        have hfree := node?_freshName hp
        have hne : p ≠ q := by
          rintro rfl
          simp [hnode] at hfree
        rw [hnode, Function.update_of_ne hne] at hfree
        have hch := changes_of_update hq.file (by simp) hnode
        exact hne (hlast n p (hch.locate_eq_ok_iff.mp (hn ▸ hp)) hfree)
      rcases hsaving with ⟨-, e, t', hadd, -⟩ | ⟨t', -, hsaved⟩
      · simp [hadd]
      · exact absurd hsaved.replaces hnot

/-! ## Purging -/

/-- What a purge leaves of the entries and the files. -/
structure Purged (c : StoreConfig) (t : FileTree) (entries : Entries) (t' : FileTree)
    (kept : Entries) : Prop where
  /-- The entries that are left are those whose files are intact. -/
  kept_iff : ∀ h e, kept.get? h = some e ↔ entries.get? h = some e ∧ c.Intact t h e
  stored : c.stored? t' = some kept
  untouched : ∀ h e, kept.get? h = some e →
    t'.find (c.filePath e.file) = t.find (c.filePath e.file)
  gone : ∀ h e, entries.get? h = some e → ¬ c.Intact t h e →
    t'.isPresent (c.filePath e.file) = false
  /-- The next purge finds nothing and writes nothing. -/
  again : ∀ known, ((⟨c, known⟩ : Store).purge : StateM FileTree _) t' = ((.ok 0, ⟨c, kept⟩), t')
  /-- What was taken out can be put again, and is found then. -/
  restored : ∀ h e k, entries.get? h = some e → ¬ c.Intact t h e →
    hashOf k = h → k.role.name = e.role → k.provenance ≠ "" → Index.Writable k.provenance →
    ∀ known, ∃ s t'', ((⟨c, known⟩ : Store).put k : StateM FileTree _) t' = ((.ok true, s), t'') ∧
      t''.read (c.filePath e.file) = .ok (Text.Utf8.bytes k.source) ∧
      ∀ known, (((⟨c, known⟩ : Store).get k : StateM FileTree _) t'').1.1 =
        .ok (some (c.filePath e.file))

/-- Where nothing is stale nothing has to be done. -/
theorem purged_of_intact (hlock : c.HasLock t)
    (hload : ((c.load : StateM FileTree _) t).1 = .ok entries)
    (hintact : ∀ h e, entries.get? h = some e → c.Intact t h e) : Purged c t entries t entries where
  kept_iff h e := ⟨fun hget => ⟨hget, hintact h e hget⟩, And.left⟩
  stored := hlock.stored? hload
  untouched _ _ _ := rfl
  gone h e hget hnot := absurd (hintact h e hget) hnot
  again := purge_of_intact hlock hload hintact
  restored h e _ hget hnot := absurd (hintact h e hget) hnot

section

variable (hc : c.Separate) (hrecords : c.Records t entries)
  (hdrop : t.Changes (fun p node => node = none ∧
    ∃ path ∈ c.stalePaths t entries, t.LeadsTo path p) t₁)
include hc hrecords hdrop

omit hc hdrop in
/-- The place of a stale file is that of a kernel file. -/
theorem exists_stale {p : List String} (h : ∃ path ∈ c.stalePaths t entries, t.LeadsTo path p) :
    ∃ hash e role, entries.get? hash = some e ∧ ¬ c.Intact t hash e ∧
      t.LeadsTo (c.kernelPath role hash) p := by
  obtain ⟨path, hpath, hp⟩ := h
  obtain ⟨⟨hash, e⟩, hmem, rfl⟩ := List.mem_map.mp hpath
  obtain ⟨hget, hnot⟩ := mem_stale.mp hmem
  obtain ⟨role, hrole⟩ := (hrecords hash e hget).path
  exact ⟨hash, e, role, hget, hnot, hrole ▸ hp⟩

theorem find_of_dropped {h : ContentHash} {e : Entry} (hget : entries.get? h = some e)
    (hintact : c.Intact t h e) : t₁.find (c.filePath e.file) = t.find (c.filePath e.file) := by
  refine (hrecords h e hget).find_eq hdrop fun role p hp hmay => ?_
  obtain ⟨h', e', role', hget', hnot, hp'⟩ := exists_stale hrecords hmay.2
  obtain rfl := hc.kernel ⟨t, p, hp, hp'⟩
  exact hnot (Option.some.inj (hget.symm.trans hget') ▸ hintact)

theorem hasLock_of_dropped (hlock : c.HasLock t) : c.HasLock t₁ := by
  refine hlock.changes hdrop fun q hq hmay => ?_
  obtain ⟨h, e, role, -, -, hp⟩ := exists_stale hrecords hmay.2
  exact absurd ⟨t, q, hp, hq⟩ hc.lock

theorem read_of_dropped {bytes : List UInt8} (hread : t.read c.indexPath = .ok bytes) :
    t₁.read c.indexPath = .ok bytes := by
  refine (hdrop.read_eq_ok_iff fun q hq hmay => ?_).mpr hread
  obtain ⟨h, e, role, -, -, hp⟩ := exists_stale hrecords hmay.2
  exact hc.index ⟨t, q, hp, hq⟩

end

/-- The index can be replaced again where it was replaced. -/
theorem replaces_of_saved {bytes : List UInt8} (hread : t.read c.indexPath = .ok bytes)
    (hsaved : c.Saved t entries t') : t'.Replaces c.dir c.indexPath := by
  obtain ⟨place, hplace, hnode⟩ := leadsTo_of_read hread
  refine hsaved.replaces.changes hsaved.changes fun n p _ => ?_
  rcases hsaved.changes.node p with heq | ⟨hp, hnew⟩
  · rw [heq]
  · obtain rfl := hplace.unique hp
    rw [hnode, hnew]
    simp

theorem isPresent_of_saved (hc : c.Separate) {role : Role} {h : ContentHash}
    (hsaved : c.Saved t entries t') (habsent : t.isPresent (c.kernelPath role h) = false) :
    t'.isPresent (c.kernelPath role h) = false := by
  rw [isPresent_eq_false_iff] at habsent ⊢
  intro p hl
  have hl := hsaved.changes.locate_eq_ok_iff.mp hl
  have hnone := habsent p hl
  rcases hsaved.changes.node p with heq | ⟨hp, -⟩
  · rwa [heq]
  · exact absurd ⟨t, p, ⟨hl, by rw [hnone]; simp⟩, hp⟩ hc.index

/-- The entries that are left if those of the stale files are taken out. -/
theorem get?_of_dropped
    (hkept : ∀ h, kept.get? h =
      if h ∈ (c.stale t entries).map Prod.fst then none else entries.get? h)
    (h : ContentHash) (e : Entry) :
    kept.get? h = some e ↔ entries.get? h = some e ∧ c.Intact t h e := by
  rw [hkept]
  split_ifs with hmem
  · obtain ⟨⟨h, e'⟩, hstale, rfl⟩ := List.mem_map.mp hmem
    obtain ⟨hget, hnot⟩ := mem_stale.mp hstale
    constructor
    · intro hn
      cases hn
    · rintro ⟨hget', hintact⟩
      exact absurd (Option.some.inj (hget.symm.trans hget') ▸ hintact) hnot
  · refine ⟨fun hget => ⟨hget, ?_⟩, And.left⟩
    by_contra hnot
    exact hmem (List.mem_map.mpr ⟨(h, e), mem_stale.mpr ⟨hget, hnot⟩, rfl⟩)

section

variable (hc : c.Separate) (hm : c.Maintained place t) (hlock : c.HasLock t)
  (hload : ((c.load : StateM FileTree _) t).1 = .ok entries)
  (hdrop : t.Changes (fun p node => node = none ∧
    ∃ path ∈ c.stalePaths t entries, t.LeadsTo path p) t₁)
  (hsaved : c.Saved t₁ kept t')
  (hkept : ∀ h e, kept.get? h = some e ↔ entries.get? h = some e ∧ c.Intact t h e)
include hc hm hlock hload hdrop hsaved hkept

/-- A kernel whose entry was taken out can be put again. -/
theorem put_of_dropped {h : ContentHash} {e : Entry} {k : Kernel} (hget : entries.get? h = some e)
    (hnot : ¬ c.Intact t h e) (hhash : hashOf k = h) (hrole : k.role.name = e.role)
    (horigin : k.provenance ≠ "") (hk : Index.Writable k.provenance) (known : Entries) :
    ∃ s t'', ((⟨c, known⟩ : Store).put k : StateM FileTree _) t' = ((.ok true, s), t'') ∧
      t''.read (c.filePath e.file) = .ok (Text.Utf8.bytes k.source) ∧
      ∀ known, (((⟨c, known⟩ : Store).get k : StateM FileTree _) t'').1.1 =
        .ok (some (c.filePath e.file)) := by
  subst hhash
  have hrecords := hm.load hload
  obtain ⟨role, hrole', hfile⟩ := (hrecords _ e hget).named
  have hentry : e.file = (c.entryOf k).file := by
    rw [hfile, ← hrole', ← hrole]
    rfl
  obtain ⟨q, hq⟩ := (hrecords _ e hget).leads
  have hq' := hsaved.changes.leadsTo_iff.mpr (hdrop.leadsTo_iff.mpr hq)
  rw [hentry] at hq' ⊢
  have hsub : ∀ h e, kept.get? h = some e → entries.get? h = some e := fun h e hget =>
    ((hkept h e).mp hget).1
  have hnew : kept.get? (hashOf k) = none := by
    rw [Option.eq_none_iff_forall_ne_some]
    intro e' hget'
    obtain ⟨hget', hintact⟩ := (hkept _ e').mp hget'
    exact hnot (Option.some.inj (hget.symm.trans hget') ▸ hintact)
  have hlock' := (hasLock_of_dropped hc hrecords hdrop hlock).saved hsaved
  obtain ⟨hsize, hwritable⟩ := writable_of_kept hload hsub
  -- the index was there before, for it had the entry
  have hreplaces : t'.Replaces c.dir c.indexPath := by
    rcases load_eq_ok hload with rfl | ⟨bytes, hread, -⟩
    · cases hget
    · exact replaces_of_saved (read_of_dropped hc hrecords hdrop hread) hsaved
  refine put_of_replaces hc hlock' (hsaved.load hsize hwritable) horigin hnew ?_
    (entryOf_writable hk hq') hq' hreplaces known
  refine Nat.lt_of_le_of_lt (Table.size_le_of_keys fun h e' hadded => ?_) (load_writable hload).1
  rw [Table.get?_insert] at hadded
  split_ifs at hadded with heq
  · exact ⟨e, heq ▸ hget⟩
  · exact ⟨e', hsub h e' hadded⟩

theorem purged_of_saved (habsent : ∀ path ∈ c.stalePaths t entries, t₁.isPresent path = false) :
    Purged c t entries t' kept := by
  have hrecords := hm.load hload
  have hlock' := (hasLock_of_dropped hc hrecords hdrop hlock).saved hsaved
  obtain ⟨hsize, hwritable⟩ := writable_of_kept hload fun h e hget => ((hkept h e).mp hget).1
  have hload' := hsaved.load hsize hwritable
  have hfind : ∀ h e, kept.get? h = some e →
      t'.find (c.filePath e.file) = t.find (c.filePath e.file) := by
    intro h e hget
    obtain ⟨hget, hintact⟩ := (hkept h e).mp hget
    rw [((hrecords h e hget).changes hdrop).find_saved hc hsaved,
      find_of_dropped hc hrecords hdrop hget hintact]
  constructor
  · exact hkept
  · exact hlock'.stored? hload'
  · exact hfind
  · intro h e hget hnot
    obtain ⟨role, hrole⟩ := (hrecords h e hget).path
    have hpath := habsent _ (List.mem_map.mpr ⟨(h, e), mem_stale.mpr ⟨hget, hnot⟩, rfl⟩)
    rw [hrole] at hpath ⊢
    exact isPresent_of_saved hc hsaved hpath
  · exact purge_of_intact hlock' hload' fun h e hget =>
      (intact_congr (hfind h e hget)).mpr ((hkept h e).mp hget).2
  · intro h e k hget hnot hhash hrole horigin hk known
    exact put_of_dropped hc hm hlock hload hdrop hsaved hkept hget hnot hhash hrole horigin hk known

end

/-- What the steps of a purge leave under the lock. -/
theorem purgeEntries_purged (hc : c.Separate) (hm : c.Maintained place t) (hlock : c.HasLock t)
    (hload : ((c.load : StateM FileTree _) t).1 = .ok entries) {n : ℕ}
    (hpurge : ((purgeEntries c entries : StateM FileTree _) t).1.1 = .ok n) :
    n = (c.stale t entries).length ∧
      Purged c t entries ((purgeEntries c entries : StateM FileTree _) t).2
        ((purgeEntries c entries : StateM FileTree _) t).1.2 := by
  obtain ⟨t₁, hdrop, ⟨e, kept, t', hfailed, -⟩ | ⟨hnone, hnothing⟩ |
    ⟨kept, t', hdone, hsaved, hkept, habsent⟩⟩ := purgeEntries_cases c entries t
  · rw [hfailed] at hpurge
    cases hpurge
  · rw [hnothing] at hpurge ⊢
    refine ⟨?_, purged_of_intact hlock hload fun h e hget => ?_⟩
    · rw [hnone, ← Except.ok.inj hpurge]
      rfl
    · by_contra hnot
      have hmem := mem_stale.mpr ⟨hget, hnot⟩
      rw [hnone] at hmem
      cases hmem
  · rw [hdone] at hpurge ⊢
    exact ⟨(Except.ok.inj hpurge).symm, purged_of_saved hc hm hlock hload hdrop hsaved
      (get?_of_dropped hkept) habsent⟩

/-- Taking the lock makes nothing stale. -/
theorem Purged.of_touch (h : Purged c t₁ entries t' kept)
    (hsame : ∀ hash e, entries.get? hash = some e →
      t₁.find (c.filePath e.file) = t.find (c.filePath e.file)) : Purged c t entries t' kept := by
  have hiff : ∀ hash e, entries.get? hash = some e → (c.Intact t₁ hash e ↔ c.Intact t hash e) :=
    fun hash e hget => intact_congr (hsame hash e hget)
  constructor
  · intro hash e
    rw [h.kept_iff]
    exact and_congr_right (hiff hash e)
  · exact h.stored
  · intro hash e hget
    rw [h.untouched hash e hget, hsame hash e ((h.kept_iff hash e).mp hget).1]
  · intro hash e hget hnot
    exact h.gone hash e hget (mt (hiff hash e hget).mp hnot)
  · exact h.again
  · intro hash e k hget hnot
    exact h.restored hash e k hget (mt (hiff hash e hget).mp hnot)

theorem purge_purged (hc : c.Separate) (hm : c.Maintained place t) {known : Entries} {n : ℕ}
    (hpurge : (((⟨c, known⟩ : Store).purge : StateM FileTree _) t).1.1 = .ok n) :
    ∃ entries kept, c.stored? t = some entries ∧ n = (c.stale t entries).length ∧
      (((⟨c, known⟩ : Store).purge : StateM FileTree _) t).1.2 = ⟨c, kept⟩ ∧
      Purged c t entries (((⟨c, known⟩ : Store).purge : StateM FileTree _) t).2 kept := by
  rw [purge] at hpurge ⊢
  rcases change_cases ⟨c, known⟩ (purgeEntries c) t with
    ⟨e, t', hchange, -⟩ | ⟨t₁, entries, htouch, hload, hchange⟩
  · rw [hchange] at hpurge
    cases hpurge
  · have hm₁ := hm.touch htouch
    have hsame : ∀ hash e, entries.get? hash = some e →
        t₁.find (c.filePath e.file) = t.find (c.filePath e.file) := fun hash e hget =>
      (hm₁.load hload hash e hget).find_touch hc htouch
    have hstale : c.stale t₁ entries = c.stale t entries :=
      List.filter_congr fun p hp => by
        rw [decide_eq_decide, intact_congr (hsame p.1 p.2 (Table.mem_toList_iff.mp hp))]
    rw [hchange] at hpurge ⊢
    obtain ⟨hcount, hpurged⟩ := purgeEntries_purged hc hm₁ (hasLock_of_touch htouch) hload hpurge
    exact ⟨entries, _, by rw [stored?_of_touch htouch, hload]; rfl, hstale ▸ hcount, rfl,
      hpurged.of_touch hsame⟩

/-- Whatever happened in a directory, a purge that succeeds takes out the entries whose files are
missing, are no texts or hold other texts, and tells how many these are. The other entries stay in
the index, and the store has them, with their files as they were. No file is left of the entries
that were taken out. Another purge finds nothing and writes nothing, and a kernel that was taken out
can be put again and is found then.

No kernel file may be the index, its lock, a temporary file or the file of another hash. A kernel
file that is a temporary one may take the last free name of such files, and then it cannot be put
again. -/
theorem purge_of_run (hc : c.Separate) {base : FileTree} (hopens : base.Opens c.dir place)
    (hnone : base.isPresent c.indexPath = false) {incidents : List Incident}
    (hwritable : ∀ known k, .serve known (.put k) ∈ incidents → Index.Writable k.provenance)
    {known : Entries} {n : ℕ} :
    let t := Incident.run c base incidents
    let out := ((⟨c, known⟩ : Store).purge : StateM FileTree _) t
    out.1.1 = .ok n → ∃ entries kept, c.stored? t = some entries ∧
      n = (c.stale t entries).length ∧ out.1.2 = ⟨c, kept⟩ ∧ Purged c t entries out.2 kept :=
  purge_purged hc ((maintained_of_absent hopens hnone).run hc hwritable)

/-- Two kernels are put, and the file of one of them is overwritten with what is no text. -/
def spoiled : List Incident :=
  [.openStore, .serve .empty (.put ⟨.brisc, "a", "", []⟩),
    .serve .empty (.put ⟨.ncrisc, "b", "b", []⟩),
    .overwrite .brisc (hashOf ⟨.brisc, "a", "", []⟩) [0xff]]

theorem purge_of_run_spoiled :
    let t := Incident.run (ofDir "c") emptyDir spoiled
    let out := ((⟨ofDir "c", .empty⟩ : Store).purge : StateM FileTree _) t
    out.1.1 = .ok 1 ∧ ∃ entries kept, (ofDir "c").stored? t = some entries ∧
      1 = ((ofDir "c").stale t entries).length ∧ out.1.2 = ⟨ofDir "c", kept⟩ ∧
      Purged (ofDir "c") t entries out.2 kept := by
  have hwritable : ∀ known k, .serve known (.put k) ∈ spoiled → Index.Writable k.provenance := by
    intro known k hk
    simp only [spoiled, List.mem_cons, Incident.serve.injEq, Request.put.injEq, reduceCtorEq,
      false_or, or_false, List.not_mem_nil] at hk
    rcases hk with ⟨-, rfl⟩ | ⟨-, rfl⟩ <;> decide
  have hnone : emptyDir.isPresent (ofDir "c").indexPath = false := by decide +kernel
  have hout : (((⟨ofDir "c", .empty⟩ : Store).purge : StateM FileTree _)
      (Incident.run (ofDir "c") emptyDir spoiled)).1.1 = .ok 1 := by
    decide +kernel
  exact ⟨hout, purge_of_run (separate_ofDir "c") ready_emptyDir.opens hnone hwritable hout⟩

/-- Where kernel files meet other files a purge goes wrong. If one is the index, the file of an
entry that is taken out is there afterwards. If one was the lock, the next purge writes the lock. If
two kernels have one file, the file of an entry that stays goes with that of the other one. -/
theorem purge_of_meeting :
    let k : Kernel := ⟨.brisc, "a", "", []⟩
    let l : Kernel := ⟨.brisc, "a", "//\n", []⟩
    (let c : StoreConfig :=
        { dir := "c", indexName := "k_brisc_c15c636231f9c328.cpp", filePrefix := "k" }
      let t := Incident.run c emptyDir [.openStore, .serve .empty (.put k)]
      let out := ((⟨c, .empty⟩ : Store).purge : StateM FileTree _) t
      (c.stored? t).bind (Table.get? · (hashOf k)) = some (c.entryOf k) ∧
        ¬ c.Intact t (hashOf k) (c.entryOf k) ∧ out.1.1 = .ok 1 ∧
        out.2.isPresent (c.filePath (c.entryOf k).file) = true) ∧
    (let c : StoreConfig :=
        { dir := "c", indexName := "k_brisc_c15c636231f9c328", filePrefix := "k",
          extension := "lock" }
      let t := Incident.run c emptyDir
        [.openStore, .serve .empty (.put k), .overwrite .brisc (hashOf k) [0xff]]
      let out := ((⟨c, .empty⟩ : Store).purge : StateM FileTree _) t
      let again := (out.1.2.purge : StateM FileTree _) out.2
      out.1.1 = .ok 1 ∧ again.1.1 = .ok 0 ∧ out.2.isPresent c.lockPath = false ∧
        again.2.isPresent c.lockPath = true) ∧
    (let c : StoreConfig := { dir := "c", filePrefix := "k", extension := "/../k" }
      let base : FileTree := ⟨(emptyDir.nodes.insert
        ["c", "k_brisc_c15c636231f9c328."] .directory).insert
        ["c", "k_brisc_bdbc9ed8eeb28bb6."] .directory⟩
      let t := Incident.run c base [.openStore, .serve .empty (.put k), .serve .empty (.put l)]
      let out := ((⟨c, .empty⟩ : Store).purge : StateM FileTree _) t
      out.1.1 = .ok 1 ∧ (c.stored? out.2).bind (Table.get? · (hashOf l)) = some (c.entryOf l) ∧
        c.Intact t (hashOf l) (c.entryOf l) ∧
        out.2.isPresent (c.filePath (c.entryOf l).file) = false) := by
  decide +kernel

end Store

end KernelForge

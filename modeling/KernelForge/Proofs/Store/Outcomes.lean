import KernelForge.Proofs.Store.Places

/-!
# What a change comes to

What the steps of a change do to the files when nothing but the tree speaks against them. Each step
either does all that it should or leaves the files alone, but for what was removed before.
-/
namespace KernelForge

open FileTree

namespace StoreConfig

section

variable {c : StoreConfig} {t t' : FileTree} {entries : Entries}

/-! ## Reading and saving the index -/

theorem load_eq_ok (h : ((c.load : StateM FileTree _) t).1 = .ok entries) :
    entries = .empty ∨ ∃ bytes, t.read c.indexPath = .ok bytes ∧ Index.decode bytes = .ok entries := by
  have hpresent : (Files.isPresent c.indexPath : StateM FileTree _) t =
      (t.isPresent c.indexPath, t) := rfl
  have hread : (Files.read c.indexPath : StateM FileTree _) t = (t.read c.indexPath, t) := rfl
  rw [load, bind_apply, hpresent] at h
  dsimp only at h
  split at h
  · rw [bind_apply, hread] at h
    cases hbytes : t.read c.indexPath with
    | error e =>
      rw [hbytes] at h
      cases h
    | ok bytes =>
      rw [hbytes] at h
      refine Or.inr ⟨bytes, rfl, ?_⟩
      change (Index.decode bytes).mapError StoreError.corrupt = .ok entries at h
      cases hdecode : Index.decode bytes with
      | error e => rw [hdecode] at h; cases h
      | ok entries' =>
        rw [hdecode] at h
        rw [Except.ok.inj h]
  · exact Or.inl (Except.ok.inj h).symm

theorem load_writable (h : ((c.load : StateM FileTree _) t).1 = .ok entries) :
    entries.size < 2 ^ 64 ∧ ∀ p ∈ entries.toList, p.2.Writable := by
  rcases load_eq_ok h with rfl | ⟨bytes, -, hdecode⟩
  · exact ⟨by decide, fun p hp => by cases hp⟩
  · exact Index.writable_of_decode hdecode

/-- Entries were saved: a temporary file could be made, and the index has their bytes. -/
structure Saved (c : StoreConfig) (t : FileTree) (entries : Entries) (t' : FileTree) : Prop where
  replaces : t.Replaces c.dir c.indexPath
  index : ∃ place, t.LeadsTo c.indexPath place ∧
    t'.node? = Function.update t.node? place (some (.file (Index.encode entries.toList)))

theorem save_cases (c : StoreConfig) (entries : Entries) (t : FileTree) :
    (∃ t', (c.save entries : StateM FileTree _) t = (.ok (), t') ∧ c.Saved t entries t') ∨
    (¬ t.Replaces c.dir c.indexPath ∧ ∃ e t',
      (c.save entries : StateM FileTree _) t = (.error e, t') ∧ t'.node? = t.node?) := by
  rcases replaceFile_cases c.dir c.indexPath (Index.encode entries.toList) t with
    ⟨hreplaces, place, t', hplace, hsave, hnode⟩ | hfailed
  · exact Or.inl ⟨t', hsave, hreplaces, place, hplace, hnode⟩
  · exact Or.inr hfailed

theorem Saved.changes (h : c.Saved t entries t') :
    t.Changes (fun p node => t.LeadsTo c.indexPath p ∧
      node = some (.file (Index.encode entries.toList))) t' := by
  obtain ⟨-, place, hplace, hnode⟩ := h
  refine (changes_of_update hplace.file (by simp) hnode).mono ?_
  rintro p node ⟨rfl, rfl⟩
  exact ⟨hplace, rfl⟩

theorem Saved.read (h : c.Saved t entries t') :
    t'.read c.indexPath = .ok (Index.encode entries.toList) := by
  have hch := h.changes
  obtain ⟨-, place, hplace, hnode⟩ := h
  refine read_of_node (hch.leadsTo_iff.mpr hplace).locate ?_
  rw [hnode, Function.update_self]

/-- Entries that were saved are read again. -/
theorem Saved.load (h : c.Saved t entries t') (hsize : entries.size < 2 ^ 64)
    (hwritable : ∀ p ∈ entries.toList, p.2.Writable) :
    ((c.load : StateM FileTree _) t').1 = .ok entries := by
  obtain ⟨place, hplace, hnode⟩ := leadsTo_of_read h.read
  have hfind : t'.find c.indexPath = .ok (.file (Index.encode entries.toList)) := by
    rw [hplace.find, hnode]
    rfl
  rw [load_of_file hfind, Index.decode_encode hsize hwritable]
  rfl

/-! ## Fresh files -/

/-- Whether the file of an entry is there and holds a text of the hash, as it is found out. -/
def fresh (c : StoreConfig) (t : FileTree) (h : ContentHash) (e : Entry) : Bool :=
  match t.read (c.filePath e.file) with
  | .error _ => false
  | .ok bytes =>
    match Text.Utf8.decode bytes with
    | .error _ => false
    | .ok cs => ContentHash.ofText (String.ofList cs) == h

theorem fresh_iff {h : ContentHash} {e : Entry} : c.fresh t h e = true ↔ c.Intact t h e := by
  unfold fresh Intact
  cases t.read (c.filePath e.file) with
  | error cause => simp
  | ok bytes =>
    dsimp only
    constructor
    · intro hfresh
      cases hdecode : Text.Utf8.decode bytes with
      | error fault => simp [hdecode] at hfresh
      | ok cs =>
        rw [hdecode] at hfresh
        refine ⟨String.ofList cs, ?_, by simpa using hfresh⟩
        rw [Text.Utf8.decode_eq_ok_iff.mp hdecode, Text.Utf8.bytes, String.toList_ofList]
    · rintro ⟨text, hbytes, hhash⟩
      obtain rfl := Except.ok.inj hbytes
      simpa [Text.Utf8.decode_bytes] using hhash

instance (c : StoreConfig) (t : FileTree) (h : ContentHash) (e : Entry) :
    Decidable (c.Intact t h e) :=
  decidable_of_iff (c.fresh t h e = true) fresh_iff

/-- The entries whose files are not intact. -/
def stale (c : StoreConfig) (t : FileTree) (entries : Entries) : List (ContentHash × Entry) :=
  entries.toList.filter fun p => ¬ c.Intact t p.1 p.2

theorem mem_stale {h : ContentHash} {e : Entry} :
    (h, e) ∈ c.stale t entries ↔ entries.get? h = some e ∧ ¬ c.Intact t h e := by
  rw [stale, List.mem_filter, Table.mem_toList_iff, decide_eq_true_iff]

def stalePaths (c : StoreConfig) (t : FileTree) (entries : Entries) : List Path :=
  (c.stale t entries).map fun p => c.filePath p.2.file

/-- What the index says of a kernel. -/
def entryOf (c : StoreConfig) (k : Kernel) : Entry :=
  ⟨c.fileName k.role.name (Store.hashOf k), k.role.name, k.provenance⟩

end

end StoreConfig

namespace Store

open StoreConfig

section

variable {c : StoreConfig} {t t' : FileTree} {entries : Entries}

theorem isFresh_intact (c : StoreConfig) (t : FileTree) (h : ContentHash) (e : Entry) :
    (isFresh (c.filePath e.file) h : StateM FileTree _) t = (decide (c.Intact t h e), t) := by
  have hread : (Files.read (c.filePath e.file) : StateM FileTree _) t =
      (t.read (c.filePath e.file), t) := rfl
  have hfresh : decide (c.Intact t h e) = c.fresh t h e := by
    rw [Bool.eq_iff_iff, decide_eq_true_iff, fresh_iff]
  rw [isFresh, bind_apply, hread, hfresh, fresh]
  cases t.read (c.filePath e.file) with
  | error cause => rfl
  | ok bytes =>
    dsimp only
    cases Text.Utf8.decode bytes <;> rfl

theorem staleEntries_stale (c : StoreConfig) (entries : Entries) (t : FileTree) :
    (staleEntries c entries.toList : StateM FileTree _) t =
      ((c.stale t entries).map fun p => (p.1, c.filePath p.2.file), t) := by
  unfold stale
  induction entries.toList with
  | nil => rfl
  | cons p rest ih =>
    obtain ⟨h, e⟩ := p
    rw [staleEntries, bind_apply, isFresh_intact]
    dsimp only
    rw [bind_apply, ih]
    by_cases hintact : c.Intact t h e <;> simp [hintact, pure_apply]

/-! ## Removing files -/

/-- Files are removed, whether all of them or not. -/
theorem removeFiles_changes (paths : List Path) (t : FileTree) :
    t.Changes (fun p node => node = none ∧ ∃ path ∈ paths, t.LeadsTo path p)
      ((removeFiles paths : StateM FileTree _) t).2 := by
  induction paths generalizing t with
  | nil => exact .refl
  | cons path rest ih =>
    rw [removeFiles, bind_apply]
    rcases removeFile_cases path t with
      ⟨e, hremove⟩ | ⟨hremove, -⟩ | ⟨place, t₁, hplace, hremove, hnode⟩ <;> rw [hremove]
    · exact .refl
    · refine (ih t).mono ?_
      rintro p node ⟨hnone, path', hmem, hp⟩
      exact ⟨hnone, path', List.mem_cons_of_mem _ hmem, hp⟩
    · have hfirst := changes_of_update hplace.file (by simp) hnode
      refine (hfirst.mono ?_).trans ((ih t₁).mono ?_)
      · rintro p node ⟨rfl, rfl⟩
        exact ⟨rfl, path, List.mem_cons_self, hplace⟩
      · rintro p node ⟨hnone, path', hmem, hp⟩
        exact ⟨hnone, path', List.mem_cons_of_mem _ hmem, hfirst.leadsTo_iff.mp hp⟩

/-- Where files are only removed, what is absent stays absent. -/
theorem isPresent_of_removed {paths : List Path} {path : Path}
    (hch : t.Changes (fun p node => node = none ∧ ∃ path ∈ paths, t.LeadsTo path p) t')
    (habsent : t.isPresent path = false) : t'.isPresent path = false := by
  rw [isPresent_eq_false_iff] at habsent ⊢
  intro place hl
  rcases hch.node place with heq | ⟨hnone, -⟩
  · rw [heq]
    exact habsent place (hch.locate_eq_ok_iff.mp hl)
  · exact hnone

/-- If removing files succeeds none of them is there any more. -/
theorem removeFiles_absent {paths : List Path}
    (h : ((removeFiles paths : StateM FileTree _) t).1 = .ok ()) :
    ∀ path ∈ paths, ((removeFiles paths : StateM FileTree _) t).2.isPresent path = false := by
  induction paths generalizing t with
  | nil => exact fun path hmem => by cases hmem
  | cons path rest ih =>
    have hstep : ∃ t₁, (removeFile path : StateM FileTree _) t = (.ok (), t₁) ∧
        t₁.isPresent path = false := by
      rcases removeFile_cases path t with
        ⟨e, hremove⟩ | ⟨hremove, habsent⟩ | ⟨place, t₁, hplace, hremove, hnode⟩
      · rw [removeFiles, bind_apply, hremove] at h
        cases h
      · exact ⟨t, hremove, habsent⟩
      · refine ⟨t₁, hremove, isPresent_eq_false_iff.mpr fun place' hl => ?_⟩
        have hch := changes_of_update hplace.file (by simp) hnode
        obtain rfl := Except.ok.inj (hplace.locate.symm.trans (hch.locate_eq_ok_iff.mp hl))
        rw [hnode, Function.update_self]
    obtain ⟨t₁, hremove, habsent⟩ := hstep
    have hrest : (removeFiles (path :: rest) : StateM FileTree _) t =
        (removeFiles rest : StateM FileTree _) t₁ := by
      rw [removeFiles, bind_apply, hremove]
    rw [hrest] at h ⊢
    intro path' hmem
    rcases List.mem_cons.mp hmem with rfl | hmem
    · exact isPresent_of_removed (removeFiles_changes rest t₁) habsent
    · exact ih h path' hmem

/-- Taking out entries with their files removes the files. -/
theorem dropAll_cases (stale : List (ContentHash × Path)) (entries : Entries) (t : FileTree) :
    ∃ kept, (dropAll entries stale : StateM FileTree _) t =
        ((((removeFiles (stale.map Prod.snd) : StateM FileTree _) t).1, kept),
          ((removeFiles (stale.map Prod.snd) : StateM FileTree _) t).2) ∧
      (((removeFiles (stale.map Prod.snd) : StateM FileTree _) t).1 = .ok () →
        ∀ h, kept.get? h = if h ∈ stale.map Prod.fst then none else entries.get? h) := by
  induction stale generalizing entries t with
  | nil => exact ⟨entries, rfl, fun _ h => by simp⟩
  | cons s rest ih =>
    rw [List.map_cons, removeFiles, dropAll, bind_apply, bind_apply]
    generalize (removeFile s.2 : StateM FileTree _) t = removed
    obtain ⟨_ | _, t₁⟩ := removed
    · exact ⟨entries.erase s.1, rfl, fun hok => by cases hok⟩
    · obtain ⟨kept, hdrop, hkept⟩ := ih (entries.erase s.1) t₁
      refine ⟨kept, hdrop, fun hok h => ?_⟩
      simp only [hkept hok, Table.get?_erase, List.map_cons, List.mem_cons]
      by_cases hs : h = s.1
      · simp [hs]
      · simp only [hs, Ne.symm hs, if_false, false_or]

/-! ## Changes -/

theorem change_of_load {α : Type} {s : Store} {t₁ : FileTree}
    (htouch : t.touch s.config.lockPath = .ok t₁)
    (hload : ((s.config.load : StateM FileTree _) t₁).1 = .ok entries)
    (body : Entries → StateM FileTree (Except StoreError α × Entries)) :
    s.change body t =
      (((body entries t₁).1.1, { s with known := (body entries t₁).1.2 }), (body entries t₁).2) := by
  rw [change_eq, bind_apply, locked_apply true _ htouch]
  dsimp only
  rw [pure_apply, lockedSteps, bind_apply, load_tree, hload]
  rfl

/-- A change fails before its steps, having done no more than take the lock, or it does its steps on
the entries of the index. -/
theorem change_cases {α : Type} (s : Store)
    (body : Entries → StateM FileTree (Except StoreError α × Entries)) (t : FileTree) :
    (∃ e t', s.change body t = ((.error e, s), t') ∧
      (t' = t ∨ t.touch s.config.lockPath = .ok t')) ∨
    ∃ t₁ entries, t.touch s.config.lockPath = .ok t₁ ∧
      ((s.config.load : StateM FileTree _) t₁).1 = .ok entries ∧
      s.change body t =
        (((body entries t₁).1.1, { s with known := (body entries t₁).1.2 }),
          (body entries t₁).2) := by
  cases htouch : t.touch s.config.lockPath with
  | error e =>
    refine Or.inl ⟨.io s.config.lockPath e, t, ?_, Or.inl rfl⟩
    rw [change_eq, bind_apply]
    simp only [Files.locked, htouch]
    rfl
  | ok t₁ =>
    cases hload : ((s.config.load : StateM FileTree _) t₁).1 with
    | error e =>
      refine Or.inl ⟨e, t₁, ?_, Or.inr rfl⟩
      rw [change_eq, bind_apply, locked_apply true _ htouch]
      dsimp only
      rw [pure_apply, lockedSteps, bind_apply, load_tree, hload]
      rfl
    | ok entries => exact Or.inr ⟨t₁, entries, rfl, hload, change_of_load htouch hload body⟩

theorem purgeEntries_of_fresh (h : c.stale t entries = []) :
    (purgeEntries c entries : StateM FileTree _) t = ((.ok 0, entries), t) := by
  rw [purgeEntries, bind_apply, staleEntries_stale, h]
  rfl

/-- A purge takes out the files of the stale entries, whether all of them or not. It succeeds if all
are out and the other entries are saved, and saves nothing if there is nothing to take out. -/
theorem purgeEntries_cases (c : StoreConfig) (entries : Entries) (t : FileTree) :
    ∃ t₁, t.Changes (fun p node => node = none ∧
        ∃ path ∈ c.stalePaths t entries, t.LeadsTo path p) t₁ ∧
      ((∃ e kept t', (purgeEntries c entries : StateM FileTree _) t = ((.error e, kept), t') ∧
          t'.node? = t₁.node?) ∨
        (c.stale t entries = [] ∧
          (purgeEntries c entries : StateM FileTree _) t = ((.ok 0, entries), t)) ∨
        ∃ kept t', (purgeEntries c entries : StateM FileTree _) t =
            ((.ok (c.stale t entries).length, kept), t') ∧ c.Saved t₁ kept t' ∧
          (∀ h, kept.get? h =
            if h ∈ (c.stale t entries).map Prod.fst then none else entries.get? h) ∧
          ∀ path ∈ c.stalePaths t entries, t₁.isPresent path = false) := by
  by_cases hnone : c.stale t entries = []
  · exact ⟨t, .refl, Or.inr (Or.inl ⟨hnone, purgeEntries_of_fresh hnone⟩)⟩
  have hpaths : ((c.stale t entries).map fun p => (p.1, c.filePath p.2.file)).map Prod.snd =
      c.stalePaths t entries := List.map_map ..
  have hkeys : ((c.stale t entries).map fun p => (p.1, c.filePath p.2.file)).map Prod.fst =
      (c.stale t entries).map Prod.fst := List.map_map ..
  obtain ⟨kept, hdrop, hkept⟩ :=
    dropAll_cases ((c.stale t entries).map fun p => (p.1, c.filePath p.2.file)) entries t
  rw [hpaths] at hdrop hkept
  rw [hkeys] at hkept
  refine ⟨_, removeFiles_changes (c.stalePaths t entries) t, ?_⟩
  rw [purgeEntries, bind_apply, staleEntries_stale]
  dsimp only
  rw [bind_apply, hdrop]
  cases hremoved : ((removeFiles (c.stalePaths t entries) : StateM FileTree _) t).1 with
  | error e => exact Or.inl ⟨e, kept, _, rfl, rfl⟩
  | ok u =>
    have hsome : ((c.stale t entries).map fun p => (p.1, c.filePath p.2.file)).isEmpty = false := by
      simpa using hnone
    dsimp only
    rw [hsome, if_neg Bool.false_ne_true, bind_apply, List.length_map]
    rcases save_cases c kept ((removeFiles (c.stalePaths t entries) : StateM FileTree _) t).2 with
      ⟨t', hsave, hsaved⟩ | ⟨-, e, t', hsave, hsame⟩ <;> rw [hsave]
    · exact Or.inr (Or.inr ⟨kept, t', rfl, hsaved, hkept hremoved, removeFiles_absent hremoved⟩)
    · exact Or.inl ⟨e, kept, t', rfl, hsame⟩

theorem addKernel_eq (c : StoreConfig) (k : Kernel) (entries : Entries) :
    (addKernel c k entries : StateM FileTree _) =
      if entries.contains (hashOf k) then return (.ok false, entries)
      else do
        match ← replaceFile c.dir (c.filePath (c.entryOf k).file) (Text.Utf8.bytes k.source) with
        | .error e => return (.error e, entries)
        | .ok () =>
          let added := entries.insert (hashOf k) (c.entryOf k)
          return ((← c.save added).map fun () => true, added) := rfl

/-- A kernel that is new gets its file first. The index comes last. -/
theorem addKernel_cases (c : StoreConfig) (k : Kernel) {entries : Entries}
    (hnew : entries.get? (hashOf k) = none) (t : FileTree) :
    let file := c.filePath (c.entryOf k).file
    let added := entries.insert (hashOf k) (c.entryOf k)
    (¬ t.Replaces c.dir file ∧ ∃ e t', (addKernel c k entries : StateM FileTree _) t =
      ((.error e, entries), t') ∧ t'.node? = t.node?) ∨
    ∃ place t₁, t.LeadsTo file place ∧
      t₁.node? = Function.update t.node? place (some (.file (Text.Utf8.bytes k.source))) ∧
      ((¬ t₁.Replaces c.dir c.indexPath ∧ ∃ e t', (addKernel c k entries : StateM FileTree _) t =
          ((.error e, added), t') ∧ t'.node? = t₁.node?) ∨
        ∃ t', (addKernel c k entries : StateM FileTree _) t = ((.ok true, added), t') ∧
          c.Saved t₁ added t') := by
  intro file added
  have hcontains : entries.contains (hashOf k) = false := by
    rw [Table.contains, hnew]
    rfl
  rw [addKernel_eq, hcontains, if_neg Bool.false_ne_true, bind_apply]
  rcases replaceFile_cases c.dir file (Text.Utf8.bytes k.source) t with
    ⟨-, place, t₁, hplace, hreplace, hnode⟩ | ⟨hnot, e, t', hreplace, hsame⟩ <;> rw [hreplace]
  · refine Or.inr ⟨place, t₁, hplace, hnode, ?_⟩
    dsimp only
    rw [bind_apply]
    rcases save_cases c added t₁ with
      ⟨t', hsave, hsaved⟩ | ⟨hnot, e, t', hsave, hsame⟩ <;> rw [hsave]
    · exact Or.inr ⟨t', rfl, hsaved⟩
    · exact Or.inl ⟨hnot, e, t', rfl, hsame⟩
  · exact Or.inl ⟨hnot, e, t', rfl, hsame⟩

end

end Store

end KernelForge

import KernelForge.Proofs.Store.Reloading
import KernelForge.Proofs.Store.Texts

/-!
# Changes of a store

What a store may be told to change, and where that stops halfway. A kernel is not put where no
temporary file can be made. A file that cannot be read is removed before the index is saved, and so
are the files that come before one that cannot be removed.
-/
namespace KernelForge

open FileTree

namespace Store

/-- What a store may be told to change. -/
inductive Change
  | put (k : Kernel)
  | purge
  | clear
  deriving DecidableEq

/-- How something failed, if it did. -/
def failure {α : Type} : Except StoreError α → Option StoreError
  | .error e => some e
  | .ok _ => none

/-- Makes a change. Tells how it failed, if it did. -/
def make {m : Type → Type} [Monad m] [Files m] (s : Store) :
    Change → m (Option StoreError × Store)
  | .put k => do
    let (r, s) ← s.put k
    return (failure r, s)
  | .purge => do
    let (r, s) ← s.purge
    return (failure r, s)
  | .clear => do
    let (r, s) ← s.clear
    return (failure r, s)

open StoreConfig

/-! ## Steps -/

/-- The steps of a change while the lock is held. -/
def lockedSteps {m : Type → Type} [Monad m] [Files m] {α : Type} (s : Store)
    (body : Entries → m (Except StoreError α × Entries)) : m (Except StoreError α × Store) := do
  match ← s.config.load with
  | .error e => return (.error e, s)
  | .ok entries =>
    let (result, entries) ← body entries
    return (result, { s with known := entries })

theorem change_eq {m : Type → Type} [Monad m] [Files m] {α : Type} (s : Store)
    (body : Entries → m (Except StoreError α × Entries)) : s.change body = (do
      match ← Files.locked s.config.lockPath true (s.lockedSteps body) with
      | .error e => return (.error (.io s.config.lockPath e), s)
      | .ok outcome => return outcome) := rfl

/-- Where the lock can be held and the index can be read a change does what its steps do. -/
theorem change_apply {s : Store} {d : Disk} {entries : Entries} {α : Type}
    (hlock : ∀ n, d.accidents n (.lock s.config.lockPath true) = none)
    (hread : ∀ n, d.accidents n (.read s.config.indexPath) = none)
    (hstored : s.config.stored? d.tree = some entries)
    (body : Entries → StateM Disk (Except StoreError α × Entries)) :
    ∃ d₁, d.tree.touch s.config.lockPath = .ok d₁.tree ∧ d₁.accidents = d.accidents ∧
      s.change body d =
        (((body entries d₁).1.1, { s with known := (body entries d₁).1.2 }), (body entries d₁).2) := by
  obtain ⟨t₁, htouch, hentries⟩ := load_of_stored? hstored
  obtain ⟨d₁, htree, haccidents, hlocked⟩ :=
    Disk.locked_apply (s.lockedSteps body) hlock htouch
  obtain ⟨hunchanged, -, hload⟩ := load_disk s.config d₁
  rw [haccidents, htree, hentries] at hload
  refine ⟨((s.config.load : StateM Disk _) d₁).2, ?_, ?_, ?_⟩
  · rw [hunchanged.tree, htree, htouch]
  · exact hunchanged.accidents.trans haccidents
  · rw [change_eq, bind_apply, hlocked]
    dsimp only
    rw [pure_apply, lockedSteps, bind_apply, hload hread]
    rfl

/-- What a store finds is the file of the entry, if it is there. -/
theorem get_apply {c : StoreConfig} {t : FileTree} {entries : Entries}
    (hstored : c.stored? t = some entries) {k : Kernel} (horigin : k.provenance ≠ "") {e : Entry}
    (hget : entries.get? (hashOf k) = some e) (known : Entries) :
    ∃ t₁, t.touch c.lockPath = .ok t₁ ∧
      (((⟨c, known⟩ : Store).get k : StateM FileTree _) t).1.1 =
        .ok (if t₁.isFile (c.filePath e.file) then some (c.filePath e.file) else none) := by
  obtain ⟨t₁, htouch, hrefresh⟩ := refresh_apply hstored known
  refine ⟨t₁, htouch, ?_⟩
  have hfile : (Files.isFile (c.filePath e.file) : StateM FileTree _) t₁ =
      (t₁.isFile (c.filePath e.file), t₁) := rfl
  rw [get, if_neg (by simpa using horigin), bind_apply, hrefresh]
  dsimp only
  rw [hget]
  dsimp only
  rw [bind_apply, hfile]
  cases t₁.isFile (c.filePath e.file) <;> rfl

theorem get_of_intact {c : StoreConfig} (hc : c.NamesIndex) {t : FileTree} {entries : Entries}
    (hstored : c.stored? t = some entries) {k : Kernel} (horigin : k.provenance ≠ "") {e : Entry}
    (hget : entries.get? (hashOf k) = some e) (hintact : c.Intact t (hashOf k) e)
    (known : Entries) :
    (((⟨c, known⟩ : Store).get k : StateM FileTree _) t).1.1 = .ok (some (c.filePath e.file)) := by
  obtain ⟨t₁, htouch, hanswer⟩ := get_apply hstored horigin hget known
  obtain ⟨lock, hlock⟩ := hc.endsIn_lock
  obtain ⟨text, htext, -⟩ := hintact
  obtain ⟨place, hl, hnode⟩ := read_eq_ok (read_touch hlock htouch htext)
  have hfile : t₁.isFile (c.filePath e.file) = true := by
    rw [isFile, find_of_locate hl, hnode]
    rfl
  rw [hanswer, if_pos hfile]

/-! ## Putting where no temporary file can be made -/

/-- A kernel is not put where no temporary file can be made. -/
theorem put_of_createTemp {s : Store} {d : Disk} {k : Kernel} {entries : Entries} {a : Accident}
    (hlock : ∀ n, d.accidents n (.lock s.config.lockPath true) = none)
    (hread : ∀ n, d.accidents n (.read s.config.indexPath) = none)
    (hcreate : ∀ n, d.accidents n (.createTemp s.config.dir) = some a)
    (hstored : s.config.stored? d.tree = some entries)
    (hnew : entries.get? (hashOf k) = none) (horigin : k.provenance ≠ "") :
    ∃ s' d', (s.make (.put k) : StateM Disk _) d = ((some (.io s.config.dir a.cause), s'), d') := by
  obtain ⟨d₁, -, haccidents, hchange⟩ := change_apply hlock hread hstored (addKernel s.config k)
  rw [← haccidents] at hcreate
  have hcontains : entries.contains (hashOf k) = false := by
    rw [Table.contains, hnew]
    rfl
  have hadd : (addKernel s.config k entries : StateM Disk _) d₁ =
      ((.error (.io s.config.dir a.cause), entries), { d₁ with calls := d₁.calls + 1 }) := by
    rw [addKernel]
    dsimp only
    rw [hcontains, if_neg Bool.false_ne_true, bind_apply, Disk.replaceFile_of_createTemp hcreate]
    rfl
  rw [make, bind_apply, put, if_neg (by simpa using horigin), hchange, hadd]
  exact ⟨_, _, rfl⟩

/-! ## Purging what cannot be read -/

section

variable {t : FileTree} {p : Path} {place : List String}

/-- Something that is there is removed, or the answer tells at which path that failed. -/
theorem removeFile_of_node {node : FileNode} (hl : t.locate p = .ok place)
    (hnode : t.node? place = some node) :
    (removeFile p : StateM FileTree _) t =
      ((update (fun t => t.remove p) t).1.mapError (.io p),
        (update (fun t => t.remove p) t).2) := by
  have hpresent : (Files.isPresent p : StateM FileTree _) t = (true, t) := by
    change (t.isPresent p, t) = _
    rw [FileTree.isPresent, find_of_locate hl, hnode]
    rfl
  rw [removeFile, bind_apply, hpresent]
  rfl

theorem removeFile_of_file (hl : t.locate p = .ok place) {bytes : List UInt8}
    (hnode : t.node? place = some (.file bytes)) :
    (removeFile p : StateM FileTree _) t = (.ok (), ⟨t.nodes.erase place⟩) := by
  have hremove : t.remove p = .ok ⟨t.nodes.erase place⟩ := by
    simp only [FileTree.remove, hl, hnode]
  rw [removeFile_of_node hl hnode, update_apply hremove]
  rfl

theorem removeFile_of_directory (hl : t.locate p = .ok place)
    (hnode : t.node? place = some .directory) :
    (removeFile p : StateM FileTree _) t = (.error (.io p .isADirectory), t) := by
  have hremove : t.remove p = .error .isADirectory := by
    simp only [FileTree.remove, hl, hnode]
  rw [removeFile_of_node hl hnode]
  simp only [update, hremove]
  rfl

end

theorem isFresh_of_unreadable {p : Path} {a : Accident} {d : Disk}
    (hfile : ∀ n, d.accidents n (.read p) = some a) (h : ContentHash) :
    (isFresh p h : StateM Disk _) d = (false, { d with calls := d.calls + 1 }) := by
  have hread := Disk.attempt_of_accident (fun _ t => t)
    (Files.read p : StateM FileTree _) (hfile d.calls)
  change (Files.read p : StateM Disk _) d = _ at hread
  rw [isFresh, bind_apply, hread]
  rfl

theorem staleEntries_of_unreadable {c : StoreConfig} {h : ContentHash} {e : Entry} {a : Accident}
    {d : Disk} (hfile : ∀ n, d.accidents n (.read (c.filePath e.file)) = some a) :
    (staleEntries c [(h, e)] : StateM Disk _) d =
      ([(h, c.filePath e.file)], { d with calls := d.calls + 1 }) := by
  rw [staleEntries, bind_apply, isFresh_of_unreadable hfile]
  rfl

/-- A file is removed on a disk as it is removed from the tree. -/
theorem removeFile_disk {d : Disk} {p : Path} {place : List String} {bytes : List UInt8}
    (hremove : ∀ n, d.accidents n (.remove p) = none) (hl : d.tree.locate p = .ok place)
    (hnode : d.tree.node? place = some (.file bytes)) :
    (removeFile p : StateM Disk _) d =
      (.ok (), { d with tree := ⟨d.tree.nodes.erase place⟩, calls := d.calls + 1 }) := by
  have hpresent : (Files.isPresent p : StateM Disk _) d = (true, d) := by
    change (d.tree.isPresent p, d) = _
    rw [FileTree.isPresent, find_of_locate hl, hnode]
    rfl
  have hremoved := Disk.attempt_of_none (fun _ t => t)
    (Files.remove p : StateM FileTree _) (hremove d.calls)
  change (Files.remove p : StateM Disk _) d = _ at hremoved
  have htree : (Files.remove p : StateM FileTree _) d.tree =
      (.ok (), ⟨d.tree.nodes.erase place⟩) :=
    update_apply (by simp only [FileTree.remove, hl, hnode])
  rw [htree] at hremoved
  rw [removeFile, bind_apply, hpresent]
  simp only [if_true, bind_apply, hremoved]
  rfl

/-- A file that cannot be read is taken for stale. It is gone then, also if the index cannot be
saved. -/
theorem purgeEntries_of_unreadable {c : StoreConfig} {entries : Entries} {h : ContentHash}
    {e : Entry} {a b : Accident} {d : Disk} {place : List String} {bytes : List UInt8}
    (hfile : ∀ n, d.accidents n (.read (c.filePath e.file)) = some a)
    (hremove : ∀ n, d.accidents n (.remove (c.filePath e.file)) = none)
    (hcreate : ∀ n, d.accidents n (.createTemp c.dir) = some b)
    (hentries : entries.toList = [(h, e)]) (hl : d.tree.locate (c.filePath e.file) = .ok place)
    (hnode : d.tree.node? place = some (.file bytes)) :
    (purgeEntries c entries : StateM Disk _) d =
      ((.error (.io c.dir b.cause), entries.erase h),
        ⟨⟨d.tree.nodes.erase place⟩, d.calls + 3, d.accidents⟩) := by
  have hremoved := removeFile_disk (d := { d with calls := d.calls + 1 }) hremove hl hnode
  have hdrop : (dropAll entries [(h, c.filePath e.file)] : StateM Disk _)
      { d with calls := d.calls + 1 } =
      ((.ok (), entries.erase h), ⟨⟨d.tree.nodes.erase place⟩, d.calls + 2, d.accidents⟩) := by
    rw [dropAll, bind_apply, hremoved]
    rfl
  have hsave : (c.save (entries.erase h) : StateM Disk _)
      ⟨⟨d.tree.nodes.erase place⟩, d.calls + 2, d.accidents⟩ =
      (.error (.io c.dir b.cause), ⟨⟨d.tree.nodes.erase place⟩, d.calls + 3, d.accidents⟩) :=
    Disk.replaceFile_of_createTemp
      (d := ⟨⟨d.tree.nodes.erase place⟩, d.calls + 2, d.accidents⟩) hcreate _ _
  rw [purgeEntries, hentries, bind_apply, staleEntries_of_unreadable hfile]
  dsimp only
  rw [bind_apply, hdrop]
  dsimp only [List.isEmpty_cons]
  rw [if_neg Bool.false_ne_true, bind_apply, hsave]
  rfl

theorem purge_of_unreadable {s : Store} {d : Disk} {entries : Entries} {h : ContentHash} {e : Entry}
    {a b : Accident} (hc : s.config.NamesIndex)
    (hlock : ∀ n, d.accidents n (.lock s.config.lockPath true) = none)
    (hread : ∀ n, d.accidents n (.read s.config.indexPath) = none)
    (hfile : ∀ n, d.accidents n (.read (s.config.filePath e.file)) = some a)
    (hremove : ∀ n, d.accidents n (.remove (s.config.filePath e.file)) = none)
    (hcreate : ∀ n, d.accidents n (.createTemp s.config.dir) = some b)
    (hstored : s.config.stored? d.tree = some entries) (hentries : entries.toList = [(h, e)])
    (hintact : s.config.Intact d.tree h e) :
    ∃ s' d', (s.make .purge : StateM Disk _) d = ((some (.io s.config.dir b.cause), s'), d') ∧
      ¬ s.config.Intact d'.tree h e := by
  obtain ⟨d₁, htouch, haccidents, hchange⟩ :=
    change_apply hlock hread hstored (purgeEntries s.config)
  rw [← haccidents] at hfile hremove hcreate
  obtain ⟨lock, hends⟩ := hc.endsIn_lock
  obtain ⟨text, htext, -⟩ := hintact
  obtain ⟨place, hl, hnode⟩ := read_eq_ok (read_touch hends htouch htext)
  have hpurge := purgeEntries_of_unreadable hfile hremove hcreate hentries hl hnode
  rw [make, bind_apply, purge, hchange, hpurge]
  refine ⟨_, _, rfl, ?_⟩
  rintro ⟨text, htext, -⟩
  rw [FileTree.read, find_erase_file hl hnode] at htext
  cases htext

/-! ## Clearing a directory that stays -/

/-- A store stops clearing at the first path that leads to a directory. -/
theorem clear_of_directory {c : StoreConfig} {t : FileTree} {entries : Entries} {e e' : Entry}
    {place place' : List String} {bytes : List UInt8} (hstored : c.stored? t = some entries)
    (htouch : t.touch c.lockPath = .ok t) (hvalues : entries.values = [e, e'])
    (hl : t.locate (c.filePath e.file) = .ok place) (hnode : t.node? place = some (.file bytes))
    (hl' : t.locate (c.filePath e'.file) = .ok place')
    (hnode' : t.node? place' = some .directory) (known : Entries) :
    ((⟨c, known⟩ : Store).make .clear : StateM FileTree _) t =
      ((some (.io (c.filePath e'.file) .isADirectory), ⟨c, entries⟩), ⟨t.nodes.erase place⟩) := by
  have halters := alters_erase_file hnode
  have hfirst := removeFile_of_file hl hnode
  have hsecond := removeFile_of_directory (halters.locate_eq_ok_iff.mpr hl')
    ((halters.directory_iff place').mpr hnode')
  have hload : (c.load : StateM FileTree _) t = (.ok entries, t) := by
    obtain ⟨t₁, htouch₁, hentries⟩ := load_of_stored? hstored
    obtain rfl := Except.ok.inj (htouch.symm.trans htouch₁)
    exact Prod.ext hentries (load_tree c t)
  have hremove : (removeFiles (entries.values.map fun e => c.filePath e.file) :
      StateM FileTree _) t =
      (.error (.io (c.filePath e'.file) .isADirectory), ⟨t.nodes.erase place⟩) := by
    rw [hvalues, List.map_cons, removeFiles, bind_apply, hfirst]
    dsimp only
    rw [List.map_cons, removeFiles, bind_apply, hsecond]
    rfl
  rw [make, bind_apply, clear, change_eq, bind_apply, locked_apply true _ htouch]
  dsimp only
  rw [pure_apply, lockedSteps, bind_apply, hload]
  dsimp only
  rw [bind_apply, clearEntries, bind_apply, hremove]
  rfl

/-- A directory whose index has two kernels. The first one has its file, and a directory stands in
the place of the file of the second one. -/
def obstructed (first second : Kernel) : FileTree :=
  ⟨(((emptyDir.nodes.insert ["c", lockFile] (.file [])).insert ["c", indexFile]
    (.file (Index.encode [(hashOf first, first.entry), (hashOf second, second.entry)]))).insert
    ["c", first.entry.file] (.file (Text.Utf8.bytes first.source))).insert
    ["c", second.entry.file] .directory⟩

section

variable {first second : Kernel}

theorem node?_obstructed (p : List String) : (obstructed first second).node? p =
    if ["c", second.entry.file] = p then some .directory
    else if ["c", first.entry.file] = p then some (.file (Text.Utf8.bytes first.source))
    else if ["c", indexFile] = p then some (.file (Index.encode
      [(hashOf first, first.entry), (hashOf second, second.entry)]))
    else if ["c", lockFile] = p then some (.file []) else emptyDir.node? p := by
  rw [obstructed, node?_insert (t := ⟨_⟩) (by simp), node?_insert (t := ⟨_⟩) (by simp),
    node?_insert (t := ⟨_⟩) (by simp), node?_insert (by simp)]

theorem opens_obstructed : (obstructed first second).Opens "c" ["c"] := by
  refine ⟨Or.inr rfl, ?_⟩
  rw [node?_obstructed]
  simp [ready_emptyDir.opens.directory]

theorem node?_lock : (obstructed first second).node? ["c", lockFile] = some (.file []) := by
  have hindex : indexFile ≠ lockFile := by decide
  rw [node?_obstructed, if_neg (by simpa using second.file_ne.2.1),
    if_neg (by simpa using first.file_ne.2.1), if_neg (by simpa using hindex), if_pos rfl]

theorem node?_index : (obstructed first second).node? ["c", indexFile] = some (.file (Index.encode
    [(hashOf first, first.entry), (hashOf second, second.entry)])) := by
  rw [node?_obstructed, if_neg (by simpa using second.file_ne.1),
    if_neg (by simpa using first.file_ne.1), if_pos rfl]

theorem locate_obstructed {name : String} (h : IsFile name) :
    (obstructed first second).locate (Path.join "c" name) = .ok ["c", name] := by
  have hu : Usable "c" name := h.usable (by decide)
  exact opens_obstructed.locate_join hu.plain hu.fits

theorem touch_obstructed :
    (obstructed first second).touch (ofDir "c").lockPath = .ok (obstructed first second) := by
  have hl : (obstructed first second).locate (ofDir "c").lockPath = .ok ["c", lockFile] :=
    locate_obstructed .lock
  rw [touch, find_of_locate hl, node?_lock]
  rfl

theorem stored?_obstructed (hne : hashOf first ≠ hashOf second)
    (hfirst : Index.Writable first.provenance) (hsecond : Index.Writable second.provenance) :
    ∃ entries, (ofDir "c").stored? (obstructed first second) = some entries ∧
      entries.toList = [(hashOf first, first.entry), (hashOf second, second.entry)] := by
  obtain ⟨entries, hentries⟩ : ∃ entries : Entries,
      entries.toList = [(hashOf first, first.entry), (hashOf second, second.entry)] :=
    ⟨⟨_, by simpa using hne⟩, rfl⟩
  refine ⟨entries, ?_, hentries⟩
  have hdecode : Index.decode (Index.encode entries.toList) = .ok entries := by
    refine Index.decode_encode ?_ fun p hp => ?_
    · have htwo : 2 < 2 ^ 64 := by decide
      rwa [Table.size, hentries]
    · rw [hentries] at hp
      simp only [List.mem_cons, List.not_mem_nil, or_false] at hp
      rcases hp with rfl | rfl
      · exact Kernel.entry_writable hfirst
      · exact Kernel.entry_writable hsecond
  have hl : (obstructed first second).locate (ofDir "c").indexPath = .ok ["c", indexFile] :=
    locate_obstructed .index
  have hfind : (obstructed first second).find (ofDir "c").indexPath =
      .ok (.file (Index.encode entries.toList)) := by
    rw [find_of_locate hl, node?_index, hentries]
    rfl
  rw [stored?_of_touch touch_obstructed, load_of_file hfind, hdecode]
  rfl

/-- Clearing such a directory fails at the second kernel. The file of the first one is gone then,
although the index still has it. -/
theorem clear_obstructed (hne : hashOf first ≠ hashOf second)
    (hfirst : Index.Writable first.provenance) (hsecond : Index.Writable second.provenance)
    (horigin : first.provenance ≠ "") :
    let c := ofDir "c"
    let t := obstructed first second
    ∃ entries s t', c.stored? t = some entries ∧
      entries.get? (hashOf first) = some first.entry ∧ c.Intact t (hashOf first) first.entry ∧
      ((⟨c, .empty⟩ : Store).make .clear : StateM FileTree _) t =
        ((some (.io (c.filePath second.entry.file) .isADirectory), s), t') ∧
      c.stored? t' = some entries ∧ ¬ c.Intact t' (hashOf first) first.entry ∧
      ((s.get first : StateM FileTree _) t').1.1 = .ok none := by
  intro c t
  obtain ⟨entries, hstored, hentries⟩ := stored?_obstructed hne hfirst hsecond
  have hother : first.entry.file ≠ second.entry.file := fun heq => hne (kernelFile_injective heq)
  have hl : t.locate (c.filePath first.entry.file) = .ok ["c", first.entry.file] :=
    locate_obstructed first.isFile_entry
  have hnode : t.node? ["c", first.entry.file] = some (.file (Text.Utf8.bytes first.source)) := by
    rw [node?_obstructed, if_neg (by simpa using hother.symm), if_pos rfl]
  have hget : entries.get? (hashOf first) = some first.entry := by
    rw [Table.get?, hentries, Table.lookup, if_pos rfl]
  have hvalues : entries.values = [first.entry, second.entry] := by
    rw [Table.values, hentries]
    rfl
  have hcleared := clear_of_directory hstored touch_obstructed hvalues hl hnode
    (locate_obstructed second.isFile_entry) (by rw [node?_obstructed, if_pos rfl]) .empty
  -- without the first file the index is what it was
  have hdir : t.node? ["c", first.entry.file] ≠ some .directory := by rw [hnode]; simp
  have halters : t.Alters (fun name _ => name = first.entry.file)
      ⟨t.nodes.erase ["c", first.entry.file]⟩ := alters_erase hdir rfl rfl
  have hindex : ∀ name (node : Option FileNode), c.indexPath.EndsIn name →
      ¬ name = first.entry.file := fun name _ hname heq =>
    first.file_ne.1 (heq.symm.trans (hname.unique (endsIn_indexPath "c")))
  obtain ⟨-, hsame⟩ := (namesIndex_ofDir "c").index_of_alters touch_obstructed hindex halters
  have hgone := find_erase_file hl hnode
  have hlock : (⟨t.nodes.erase ["c", first.entry.file]⟩ : FileTree).touch c.lockPath =
      .ok ⟨t.nodes.erase ["c", first.entry.file]⟩ := by
    have hlockPath : t.locate c.lockPath = .ok ["c", lockFile] := locate_obstructed .lock
    rw [touch, find_of_locate (halters.locate_eq_ok_iff.mpr hlockPath), node?_erase (by simp),
      if_neg (by simpa using first.file_ne.2.1), node?_lock]
    rfl
  refine ⟨entries, _, _, hstored, hget, ⟨first.source, read_of_node hl hnode, rfl⟩, hcleared,
    hsame.trans hstored, ?_, ?_⟩
  · rintro ⟨text, htext, -⟩
    rw [FileTree.read, hgone] at htext
    cases htext
  · obtain ⟨t₁, htouch, hanswer⟩ := get_apply (hsame.trans hstored) horigin hget entries
    obtain rfl := Except.ok.inj (hlock.symm.trans htouch)
    rw [hanswer, isFile, hgone]
    rfl

end

end Store

end KernelForge

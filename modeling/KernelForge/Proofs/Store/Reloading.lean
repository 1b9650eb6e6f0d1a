import KernelForge.Proofs.Store.Accidents
import KernelForge.Proofs.Store.Sharing

/-!
# Reading the index again

What a store reads of its index depends on the index file alone. As long as a change leaves that
file alone, whatever else it alters under the lock, every store reads the same entries afterwards.
-/
namespace KernelForge

open FileTree

namespace StoreConfig

/-- The index has a name, which is not that of a temporary file. -/
def NamesIndex (c : StoreConfig) : Prop := ∃ name, c.indexPath.EndsIn name ∧ ¬ IsTemp name

/-- The file of an entry has the name. -/
def Owns (c : StoreConfig) (entries : Entries) (h : ContentHash) (name : String) : Prop :=
  ∃ e, entries.get? h = some e ∧ (c.filePath e.file).EndsIn name

/-- The files of the entries have names of their own, which are not those of the index and of
temporary files. -/
structure Apart (c : StoreConfig) (entries : Entries) : Prop where
  named : ∀ h e, entries.get? h = some e → ∃ name, (c.filePath e.file).EndsIn name
  own : ∀ h name, c.Owns entries h name → ¬ IsTemp name ∧ ¬ c.indexPath.EndsIn name
  unique : ∀ h h' name, c.Owns entries h name → c.Owns entries h' name → h = h'

/-- The entries of the index, if it can be read. -/
def stored? (c : StoreConfig) (t : FileTree) : Option Entries :=
  ((Files.locked c.lockPath false c.load : StateM FileTree _) t).1.toOption.bind Except.toOption

/-- The file of an entry is there and holds a text of the hash. -/
def Intact (c : StoreConfig) (t : FileTree) (h : ContentHash) (e : Entry) : Prop :=
  ∃ text, t.read (c.filePath e.file) = .ok (Text.Utf8.bytes text) ∧ ContentHash.ofText text = h

/-- Files that are named by the hashes of their entries are apart. -/
theorem apart_of_keyed {c : StoreConfig} {entries : Entries} (hext : '/' ∉ c.extension.toList)
    (hindex : ∀ h name, c.indexPath.EndsIn name → ¬ Keyed c.extension h name)
    (hkeyed : ∀ h e, entries.get? h = some e → Keyed c.extension h e.file) : c.Apart entries := by
  have hends : ∀ h name, c.Owns entries h name → Keyed c.extension h name := by
    rintro h name ⟨e, hget, hname⟩
    obtain ⟨name', hname', hkey⟩ := (hkeyed h e hget).endsIn_join hext c.dir
    exact hname.unique hname' ▸ hkey
  constructor
  · intro h e hget
    obtain ⟨name, hname, -⟩ := (hkeyed h e hget).endsIn_join hext c.dir
    exact ⟨name, hname⟩
  · intro h name howns
    have hkey := hends h name howns
    exact ⟨fun htemp => htemp.not_keyed _ h hkey, fun hname => hindex h name hname hkey⟩
  · intro h h' name howns howns'
    exact (hends h name howns).unique (hends h' name howns')

end StoreConfig

/-! ## Reading -/

namespace StoreConfig

variable {c : StoreConfig} {t t' t₁ : FileTree} {d : Disk} {entries : Entries}

theorem load_congr (h : t'.find c.indexPath = t.find c.indexPath) :
    ((c.load : StateM FileTree _) t').1 = ((c.load : StateM FileTree _) t).1 := by
  have hpresent : ∀ t : FileTree, (Files.isPresent c.indexPath : StateM FileTree _) t =
      ((t.find c.indexPath).toBool, t) := fun _ => rfl
  have hread : ∀ t : FileTree, (Files.read c.indexPath : StateM FileTree _) t =
      (t.read c.indexPath, t) := fun _ => rfl
  have hsame : t'.read c.indexPath = t.read c.indexPath := by
    rw [FileTree.read, FileTree.read, h]
  rw [load, bind_apply, bind_apply, hpresent, hpresent, h]
  dsimp only
  split
  · rw [bind_apply, bind_apply, hread, hread, hsame]
    cases t.read c.indexPath <;> rfl
  · rfl

theorem load_tree (c : StoreConfig) (t : FileTree) : ((c.load : StateM FileTree _) t).2 = t := by
  have hread : (Files.read c.indexPath : StateM FileTree _) t = (t.read c.indexPath, t) := rfl
  have hpresent : (Files.isPresent c.indexPath : StateM FileTree _) t =
      (t.isPresent c.indexPath, t) := rfl
  rw [load, bind_apply, hpresent]
  dsimp only
  split
  · rw [bind_apply, hread]
    cases t.read c.indexPath <;> rfl
  · rfl

theorem load_of_file {bytes : List UInt8} (h : t.find c.indexPath = .ok (.file bytes)) :
    ((c.load : StateM FileTree _) t).1 = (Index.decode bytes).mapError .corrupt := by
  have hpresent : (Files.isPresent c.indexPath : StateM FileTree _) t = (true, t) := by
    change (FileTree.isPresent t c.indexPath, t) = _
    rw [FileTree.isPresent, h]
    rfl
  have hread : (Files.read c.indexPath : StateM FileTree _) t = (.ok bytes, t) := by
    change (FileTree.read t c.indexPath, t) = _
    rw [FileTree.read, h]
  rw [load, bind_apply, hpresent]
  simp only [if_true, bind_apply, hread]
  rfl

/-- On a disk the index is only read, and what is read is what is there. -/
theorem load_disk (c : StoreConfig) (d : Disk) :
    let out := (c.load : StateM Disk _) d
    d.Unchanged out.2 ∧
      (∀ entries, out.1 = .ok entries → ((c.load : StateM FileTree _) d.tree).1 = .ok entries) ∧
      ((∀ n, d.accidents n (.read c.indexPath) = none) →
        out.1 = ((c.load : StateM FileTree _) d.tree).1) := by
  have hpresent : (Files.isPresent c.indexPath : StateM Disk _) d =
      (d.tree.isPresent c.indexPath, d) := rfl
  have hpresent' : (Files.isPresent c.indexPath : StateM FileTree _) d.tree =
      (d.tree.isPresent c.indexPath, d.tree) := rfl
  rw [load, load, bind_apply, bind_apply, hpresent, hpresent']
  dsimp only
  split
  · have hunchanged := Disk.read_unchanged c.indexPath d
    have hread : ∀ bytes, ((Files.read c.indexPath : StateM Disk _) d).1 = .ok bytes →
        d.tree.read c.indexPath = .ok bytes := fun _ => Disk.read_eq_ok
    have happly := Disk.read_apply (d := d) (p := c.indexPath)
    have hread' : (Files.read c.indexPath : StateM FileTree _) d.tree =
        (d.tree.read c.indexPath, d.tree) := rfl
    rw [bind_apply, bind_apply, hread']
    generalize (Files.read c.indexPath : StateM Disk _) d = answer at hunchanged hread happly ⊢
    obtain ⟨e | bytes, d₁⟩ := answer
    · refine ⟨hunchanged, fun entries h => (by cases h), fun hnone => ?_⟩
      rw [← happly hnone]
      rfl
    · rw [hread bytes rfl]
      exact ⟨hunchanged, fun entries h => h, fun _ => rfl⟩
  · exact ⟨.refl, fun entries h => h, fun _ => rfl⟩

theorem locked_apply {α : Type} (exclusive : Bool) (action : StateM FileTree α)
    (h : t.touch c.lockPath = .ok t₁) :
    (Files.locked c.lockPath exclusive action : StateM FileTree _) t =
      (.ok (action t₁).1, (action t₁).2) := by
  simp only [Files.locked, h]
  rfl

theorem stored?_of_touch (h : t.touch c.lockPath = .ok t₁) :
    c.stored? t = ((c.load : StateM FileTree _) t₁).1.toOption := by
  rw [stored?, locked_apply false c.load h]
  rfl

theorem load_of_stored? (h : c.stored? t = some entries) : ∃ t₁, t.touch c.lockPath = .ok t₁ ∧
    ((c.load : StateM FileTree _) t₁).1 = .ok entries := by
  cases htouch : t.touch c.lockPath with
  | ok t₁ =>
    have hload := (stored?_of_touch htouch).symm.trans h
    refine ⟨t₁, rfl, ?_⟩
    generalize ((c.load : StateM FileTree _) t₁).1 = r at hload ⊢
    cases r with
    | error e => cases hload
    | ok entries' => rw [Option.some.inj hload]
  | error e =>
    have hlocked : (Files.locked c.lockPath false c.load : StateM FileTree _) t =
        (.error e, t) := by
      simp only [Files.locked, htouch]
    rw [stored?, hlocked] at h
    cases h

/-- A store that was refreshed has the entries of the index, or those that it had if that cannot be
read. -/
theorem refresh_known (s : Store) (t : FileTree) :
    ((s.refresh : StateM FileTree _) t).1 =
      { s with known := (s.config.stored? t).getD s.known } := by
  rw [Store.refresh, bind_apply, stored?]
  generalize (Files.locked s.config.lockPath false s.config.load : StateM FileTree _) t = out
  obtain ⟨_ | _ | _, t'⟩ := out <;> rfl

theorem refresh_apply (h : c.stored? t = some entries) (known : Entries) :
    ∃ t₁, t.touch c.lockPath = .ok t₁ ∧
      ((⟨c, known⟩ : Store).refresh : StateM FileTree _) t = (⟨c, entries⟩, t₁) := by
  obtain ⟨t₁, htouch, hload⟩ := load_of_stored? h
  refine ⟨t₁, htouch, ?_⟩
  rw [Store.refresh, bind_apply, locked_apply false c.load htouch, load_tree, hload]
  rfl

theorem lockPath_eq (c : StoreConfig) : c.lockPath = c.indexPath ++ ".lock" :=
  Path.join_append c.dir c.indexName (by decide)

theorem NamesIndex.endsIn_lock (hc : c.NamesIndex) : ∃ name, c.lockPath.EndsIn name := by
  obtain ⟨name, hname, -⟩ := hc
  exact ⟨_, lockPath_eq c ▸ hname.append (by decide) (by decide)⟩

section

variable (hc : c.NamesIndex) (htouch : t.touch c.lockPath = .ok t₁)
include hc htouch

/-- Where the lock is held the path of the index can be followed, and taking the lock leaves the
index alone. -/
theorem NamesIndex.find_of_touch :
    (∃ place, t.locate c.indexPath = .ok place) ∧ t₁.find c.indexPath = t.find c.indexPath := by
  obtain ⟨name, hname, -⟩ := hc
  rw [lockPath_eq] at htouch
  obtain ⟨place, hl, -⟩ := touch_eq_ok htouch
  obtain ⟨place', hindex⟩ := hname.locate_of_append (by decide) (by decide) hl
  refine ⟨⟨place', hindex⟩, ?_⟩
  rcases (touch_alters (hname.append (by decide) (by decide)) htouch).find hname hindex with
    h | ⟨-, hlock, -⟩
  · exact h
  · have hlen := congrArg (fun s => s.toList.length) hlock
    simp at hlen

/-- An index that is not altered while the lock is held is read as before. -/
theorem NamesIndex.index_of_alters {may : String → Option FileNode → Prop}
    (hmay : ∀ name node, c.indexPath.EndsIn name → ¬ may name node) (h : t₁.Alters may t') :
    t'.find c.indexPath = t.find c.indexPath ∧ c.stored? t' = c.stored? t := by
  obtain ⟨lock, hlock⟩ := hc.endsIn_lock
  obtain ⟨⟨place, hindex⟩, hsame⟩ := hc.find_of_touch htouch
  have hindex₁ := (touch_alters hlock htouch).locate_eq_ok_iff.mpr hindex
  have hfind : t'.find c.indexPath = t₁.find c.indexPath := by
    obtain ⟨name, hname, -⟩ := hc
    rcases h.find hname hindex₁ with heq | ⟨node, hnode, -⟩
    · exact heq
    · exact absurd hnode (hmay name node hname)
  -- the lock can be taken again
  obtain ⟨place', hl, hdir, -⟩ := touch_eq_ok htouch
  have halters := touch_alters hlock htouch
  obtain ⟨t₂, htouch'⟩ := touch_isOk (t := t')
    (h.locate_eq_ok_iff.mpr (halters.locate_eq_ok_iff.mpr hl))
    fun hnode => hdir ((halters.directory_iff _).mp ((h.directory_iff _).mp hnode))
  refine ⟨hfind.trans hsame, ?_⟩
  rw [stored?_of_touch htouch, stored?_of_touch htouch',
    load_congr ((hc.find_of_touch htouch').2.trans hfind)]

end

end StoreConfig

/-! ## Directories of stores -/

theorem StoreConfig.endsIn_indexPath (dir : Path) : (ofDir dir).indexPath.EndsIn indexFile :=
  IsFile.index.plain.1.endsIn_join dir

theorem StoreConfig.namesIndex_ofDir (dir : Path) : (ofDir dir).NamesIndex := by
  refine ⟨indexFile, endsIn_indexPath dir, ?_⟩
  rintro ⟨rest, heq, -, -⟩
  have hhead := congrArg (fun s => s.toList.head?) heq
  simp [indexFile] at hhead

theorem StoreConfig.apart_ofDir {dir : Path} {entries : Entries}
    (hkeyed : ∀ h e, entries.get? h = some e → Keyed "cpp" h e.file) :
    (ofDir dir).Apart entries := by
  have hext : '/' ∉ "cpp".toList := by decide
  refine apart_of_keyed hext (fun h name hname => ?_) hkeyed
  obtain rfl := hname.unique (endsIn_indexPath dir)
  rintro ⟨front, heq⟩
  have hlen := congrArg (fun s => s.toList.length) heq
  simp only [String.toList_append, List.length_append, length_kernelEnd] at hlen
  have hindex : indexFile.toList.length = 9 := rfl
  omega

section

variable {base : FileTree} {dir : Path} {place : List String} {L : Ledger} {w : Shared}
  (hb : base.Ready dir place) (hdir : dir.utf8ByteSize + 1 + StoreConfig.longestFile ≤ longestPath)
  (h : L.Kept base dir place w)
include hb hdir h

theorem Ledger.Kept.stored? (hopen : 0 < L.opened) :
    ∃ entries, (StoreConfig.ofDir dir).stored? w.tree = some entries ∧ L.Indexed entries := by
  obtain ⟨f, hf, hfills⟩ := h.files
  obtain ⟨entries, hindexes, hindexed⟩ := hfills.index
  have htouch : w.tree.touch (StoreConfig.ofDir dir).lockPath = .ok w.tree :=
    hf.touch_of_some hb (StoreConfig.IsFile.lock.usable hdir) (hfills.locked hopen)
  refine ⟨entries, ?_, hindexed⟩
  rw [StoreConfig.stored?_of_touch htouch, hf.load_apply hb hdir hindexes]
  rfl

/-- In a directory that only stores have changed each kernel has its file. -/
theorem Ledger.Kept.intact {hash : ContentHash} {k : Kernel} (hk : L.stored hash = some k) :
    (StoreConfig.ofDir dir).Intact w.tree hash k.entry := by
  obtain ⟨f, hf, hfills⟩ := h.files
  exact ⟨k.source, hf.read hb (k.isFile_entry.usable hdir) (hfills.text hash k hk),
    h.valid.hash hash k hk⟩

end

end KernelForge

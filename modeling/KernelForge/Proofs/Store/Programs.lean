import KernelForge.Proofs.Store.Index
import KernelForge.Proofs.Store.Names
import Mathlib.Data.List.TakeWhile

/-!
# The steps of a store

What the steps of a store do to the files of its directory, of which only the store writes some. The
temporary file is there during a step only.
-/
namespace KernelForge

open StoreConfig

namespace FileTree

theorem update_apply {change : FileTree → Except FileError FileTree} {t t' : FileTree}
    (h : change t = .ok t') : update change t = (.ok (), t') := by
  simp only [update, h]

/-- The entries of the index in a directory. Without the file there are none. -/
def Indexes (f : Contents) (entries : Entries) : Prop :=
  (f indexFile).elim (entries = .empty) fun bytes => Index.decode bytes = .ok entries

theorem Indexes.update {f : Contents} {entries : Entries} (hsize : entries.size < 2 ^ 64)
    (hwritable : ∀ p ∈ entries.toList, p.2.Writable) :
    Indexes (Function.update f indexFile (some (Index.encode entries.toList))) entries := by
  rw [Indexes, Function.update_self]
  exact Index.decode_encode hsize hwritable

/-! ## Following a path to a directory -/

theorem walk_replicate {t : FileTree} {n : ℕ} {p q : List String}
    (h : t.walk p (List.replicate n "") = .ok q) : q = p := by
  induction n generalizing p with
  | zero => exact (Except.ok.inj h).symm
  | succ n ih =>
    rw [List.replicate_succ, walk] at h
    cases hs : t.step p "" with
    | error e => simp [hs] at h
    | ok r =>
      obtain ⟨rfl, -⟩ := step_empty_eq_ok hs
      rw [hs] at h
      exact ih h

theorem dropSlashes_append_replicate (names : List String) :
    ∃ n, names = dropSlashes names ++ List.replicate n "" := by
  have hsplit := List.takeWhile_append_dropWhile (p := fun s => decide (s = "")) (l := names.reverse)
  have hback : ∀ s ∈ names.reverse.takeWhile (fun s => decide (s = "")), s = "" := by
    intro s hs
    simpa using List.mem_takeWhile_imp hs
  refine ⟨(names.reverse.takeWhile fun s => decide (s = "")).length, ?_⟩
  have hreverse := congrArg List.reverse hsplit
  rw [List.reverse_append, List.reverse_reverse, List.eq_replicate_of_mem hback] at hreverse
  simpa [dropSlashes] using hreverse.symm

/-- The slashes at the end of a path that leads to a directory do not count. -/
theorem walk_dropSlashes {t : FileTree} {names p q : List String}
    (h : t.walk p names = .ok q) : t.walk p (dropSlashes names) = .ok q := by
  obtain ⟨n, hn⟩ := dropSlashes_append_replicate names
  rw [hn, walk_append] at h
  cases hw : t.walk p (dropSlashes names) with
  | error e => simp [hw, Except.bind] at h
  | ok r =>
    rw [hw] at h
    rw [walk_replicate h]

theorem Opens.makeDirs_apply {t : FileTree} {dir : Path} {place : List String}
    (h : t.Opens dir place) : (Files.makeDirs dir : StateM FileTree _) t = (.ok (), t) := by
  rcases h.leads with ⟨rfl, -⟩ | hlocate
  · rfl
  · obtain ⟨husable, hwalk⟩ := locate_eq_ok hlocate
    obtain ⟨-, hne, -, -⟩ := usableParts_eq_ok husable
    have hmake : (Files.makeDir dir : StateM FileTree _) t = (.error .alreadyExists, t) := by
      change update (fun t => t.makeDir dir) t = _
      simp [update, makeDir, husable, walk_dropSlashes hwalk, h.directory]
    have hthere : t.isDirectory dir = true := by
      simp [isDirectory, find, hlocate, h.directory]
    have haccept : (Files.acceptDir dir (.error .alreadyExists) : StateM FileTree _) t =
        (.ok (), t) := by
      change (if t.isDirectory dir then _ else _, t) = _
      rw [if_pos hthere]
    rw [Files.makeDirs, if_neg (by simpa using hne)]
    cases dir.above with
    | nil => rw [Files.makeDirWithin, bind_apply, hmake, haccept]
    | cons above further =>
      rw [Files.makeDirWithin, bind_apply, hmake]
      exact haccept

/-! ## Files of the directory -/

section

variable {base t : FileTree} {dir : Path} {place : List String} {f : Contents} {name : String}
  (hb : base.Ready dir place) (hf : Filled base place t f)
  (hdir : dir.utf8ByteSize + 1 + longestFile ≤ longestPath)
include hb hf hdir

theorem Filled.freshName (htemp : f tempFile = none) : t.freshName dir = tempFile := by
  have hfree : t.isPresent (dir.join tempFile) = false := by
    rw [hf.isPresent hb (IsFile.temp.usable hdir), htemp]
    rfl
  have hfirst : ".tmp" ++ toString 0 = tempFile := rfl
  simp only [FileTree.freshName, List.range_succ_eq_map, List.map_cons, List.find?_cons, hfirst,
    hfree]
  rfl

theorem Filled.createTemp_apply (htemp : f tempFile = none) :
    ∃ t', (Files.createTemp dir : StateM FileTree _) t = (.ok (dir.join tempFile), t') ∧
      Filled base place t' (Function.update f tempFile (some [])) := by
  obtain ⟨t', hwrite, hf'⟩ := hf.write hb (IsFile.temp.usable hdir) []
  refine ⟨t', ?_, hf'⟩
  simp only [Files.createTemp, hf.freshName hb hdir htemp, hwrite]

/-- A file is replaced by way of the temporary one. -/
theorem Filled.replaceFile_apply (htemp : f tempFile = none) (hname : IsFile name)
    (bytes : List UInt8) :
    ∃ t', (replaceFile dir (dir.join name) bytes : StateM FileTree _) t = (.ok (), t') ∧
      Filled base place t' (Function.update f name (some bytes)) := by
  have hu := IsFile.temp.usable hdir
  obtain ⟨t₁, hcreate, hf₁⟩ := hf.createTemp_apply hb hdir htemp
  obtain ⟨t₂, hwrite, hf₂⟩ := hf₁.write hb hu bytes
  obtain ⟨t₃, hrename, hf₃⟩ := hf₂.rename hb (hname.usable hdir) hu (Function.update_self ..)
  refine ⟨t₃, ?_, ?_⟩
  · have hwrite' : (Files.write (dir.join tempFile) bytes : StateM FileTree _) t₁ = (.ok (), t₂) :=
      update_apply hwrite
    have hrename' : (Files.rename (dir.join tempFile) (dir.join name) : StateM FileTree _) t₂ =
        (.ok (), t₃) := update_apply hrename
    rw [replaceFile, bind_apply, hcreate]
    simp only [bind_apply, hwrite', hrename']
    rfl
  · have hback : Function.update (Function.update (Function.update f tempFile (some [])) tempFile
        (some bytes)) tempFile none = f := by
      rw [Function.update_idem, Function.update_idem, ← htemp, Function.update_eq_self]
    rwa [hback] at hf₃

/-- The file is gone afterwards, whether or not it was there. -/
theorem Filled.removeFile_apply (hname : IsFile name) :
    ∃ t', (removeFile (dir.join name) : StateM FileTree _) t = (.ok (), t') ∧
      Filled base place t' (Function.update f name none) := by
  have hu := hname.usable hdir
  have hpresent : (Files.isPresent (dir.join name) : StateM FileTree _) t =
      ((f name).isSome, t) := congrArg (·, t) (hf.isPresent hb hu)
  cases hfile : f name with
  | none =>
    refine ⟨t, ?_, by rwa [← hfile, Function.update_eq_self]⟩
    rw [removeFile, bind_apply, hpresent, hfile]
    rfl
  | some bytes =>
    obtain ⟨t', hremove, hf'⟩ := hf.remove hb hu hfile
    refine ⟨t', ?_, hf'⟩
    have hremove' : (Files.remove (dir.join name) : StateM FileTree _) t = (.ok (), t') :=
      update_apply hremove
    rw [removeFile, bind_apply, hpresent, hfile]
    simp only [Option.isSome_some, if_true, bind_apply, hremove']
    rfl

theorem Filled.removeFiles_apply {names : List String} (hnames : ∀ name ∈ names, IsFile name) :
    ∃ t', (Store.removeFiles (names.map dir.join) : StateM FileTree _) t = (.ok (), t') ∧
      Filled base place t' fun name => if name ∈ names then none else f name := by
  induction names generalizing t f with
  | nil => exact ⟨t, rfl, by simpa using hf⟩
  | cons name rest ih =>
    obtain ⟨t₁, hremove, hf₁⟩ := hf.removeFile_apply hb hdir (hnames name (by simp))
    obtain ⟨t₂, hrest, hf₂⟩ := ih hf₁ fun other hother => hnames other (by simp [hother])
    refine ⟨t₂, ?_, ?_⟩
    · rw [List.map_cons, Store.removeFiles, bind_apply, hremove]
      exact hrest
    · have hsame : (fun other => if other ∈ name :: rest then none else f other) =
          fun other => if other ∈ rest then none else Function.update f name none other := by
        funext other
        by_cases h : other = name <;> simp [h]
      rwa [hsame]

/-! ## The lock and the index -/

theorem Filled.locked_of_some {bytes : List UInt8} (hlock : f lockFile = some bytes) {α : Type}
    (exclusive : Bool) (action : StateM FileTree α) :
    Files.locked (dir.join lockFile) exclusive action t = (.ok (action t).1, (action t).2) := by
  simp only [Files.locked, hf.touch_of_some hb (IsFile.lock.usable hdir) hlock]
  rfl

theorem Filled.locked_of_none (hlock : f lockFile = none) :
    ∃ t', Filled base place t' (Function.update f lockFile (some [])) ∧
      ∀ {α : Type} (exclusive : Bool) (action : StateM FileTree α),
        Files.locked (dir.join lockFile) exclusive action t = (.ok (action t').1, (action t').2) := by
  obtain ⟨t', htouch, hf'⟩ := hf.touch_of_none hb (IsFile.lock.usable hdir) hlock
  refine ⟨t', hf', ?_⟩
  intro α exclusive action
  simp only [Files.locked, htouch]
  rfl

theorem Filled.load_apply {entries : Entries} (hindex : Indexes f entries) :
    ((ofDir dir).load : StateM FileTree _) t = (.ok entries, t) := by
  have hu := IsFile.index.usable hdir
  have hpresent : (Files.isPresent (ofDir dir).indexPath : StateM FileTree _) t =
      ((f indexFile).isSome, t) := congrArg (·, t) (hf.isPresent hb hu)
  rw [StoreConfig.load, bind_apply, hpresent]
  cases hfile : f indexFile with
  | none =>
    rw [Indexes, hfile] at hindex
    obtain rfl : entries = .empty := hindex
    rfl
  | some bytes =>
    rw [Indexes, hfile] at hindex
    have hdecode : Index.decode bytes = .ok entries := hindex
    have hread : (Files.read (ofDir dir).indexPath : StateM FileTree _) t = (.ok bytes, t) :=
      congrArg (·, t) (hf.read hb hu hfile)
    simp only [Option.isSome_some, if_true, bind_apply, hread]
    rw [hdecode]
    rfl

theorem Filled.save_apply (htemp : f tempFile = none) (entries : Entries) :
    ∃ t', ((ofDir dir).save entries : StateM FileTree _) t = (.ok (), t') ∧
      Filled base place t'
        (Function.update f indexFile (some (Index.encode entries.toList))) :=
  hf.replaceFile_apply hb hdir htemp .index _

section

variable {bytes : List UInt8} {entries : Entries} (hlock : f lockFile = some bytes)
  (hindex : Indexes f entries)
include hlock hindex

theorem Filled.refresh_apply (known : Entries) :
    ((⟨ofDir dir, known⟩ : Store).refresh : StateM FileTree _) t = (⟨ofDir dir, entries⟩, t) := by
  have hload := hf.locked_of_some hb hdir hlock false (ofDir dir).load
  rw [hf.load_apply hb hdir hindex] at hload
  have hlocked : (Files.locked (ofDir dir).lockPath false (ofDir dir).load : StateM FileTree _) t =
      (.ok (.ok entries), t) := hload
  rw [Store.refresh, bind_apply, hlocked]
  rfl

theorem Filled.change_apply (known : Entries) {α : Type}
    {body : Entries → StateM FileTree (Except StoreError α × Entries)} {r : Except StoreError α}
    {entries' : Entries} {t' : FileTree} (hbody : body entries t = ((r, entries'), t')) :
    ((⟨ofDir dir, known⟩ : Store).change body) t = ((r, ⟨ofDir dir, entries'⟩), t') := by
  have hlocked := fun action : StateM FileTree (Except StoreError α × Store) =>
    hf.locked_of_some hb hdir hlock true action
  rw [Store.change, bind_apply]
  have hpath : (⟨ofDir dir, known⟩ : Store).config.lockPath = dir.join lockFile := rfl
  rw [hpath, hlocked]
  simp only [bind_apply, hf.load_apply hb hdir hindex, hbody]
  rfl

end

end

end FileTree
end KernelForge

import KernelForge.Proofs.State
import KernelForge.Proofs.Store.Directory
import KernelForge.Proofs.Store.Endings

/-!
# Calls that fail

On a disk any call may fail at any time, also halfway. A step of a store leaves the directories as
they are, and what it alters elsewhere is told by the last names of places: a file that is replaced
is altered only if the replacement succeeds, and a file that is removed is there as it was or not at
all.
-/
namespace KernelForge

/-! ## Trees that differ by last names -/

namespace FileTree

/-- The directories are the same. Elsewhere there is what was there, or what may be under its last
name. -/
structure Alters (may : String → Option FileNode → Prop) (t t' : FileTree) : Prop where
  directory_iff : ∀ p, t'.node? p = some .directory ↔ t.node? p = some .directory
  node : ∀ p, t'.node? p = t.node? p ∨ ∃ name, p.getLast? = some name ∧ may name (t'.node? p)

section

variable {may may' : String → Option FileNode → Prop} {t t' t'' : FileTree} {p dest : Path}
  {name temp : String} {place : List String} {bytes : List UInt8}

theorem Alters.refl : Alters may t t := ⟨fun _ => Iff.rfl, fun _ => Or.inl rfl⟩

theorem Alters.trans (h : Alters may t t') (h' : Alters may t' t'') : Alters may t t'' := by
  refine ⟨fun p => (h'.directory_iff p).trans (h.directory_iff p), fun p => ?_⟩
  rcases h'.node p with heq | hmay
  · rw [heq]
    exact h.node p
  · exact Or.inr hmay

theorem Alters.mono (h : Alters may t t') (hmay : ∀ name node, may name node → may' name node) :
    Alters may' t t' :=
  ⟨h.directory_iff, fun p => (h.node p).imp_right fun ⟨name, hlast, hp⟩ =>
    ⟨name, hlast, hmay _ _ hp⟩⟩

theorem Alters.locate_eq_ok_iff (h : Alters may t t') :
    t'.locate p = .ok place ↔ t.locate p = .ok place := by
  constructor
  · intro hl
    obtain ⟨husable, hwalk⟩ := locate_eq_ok hl
    simp only [locate, husable, walk_of_directories (fun q => (h.directory_iff q).mp) hwalk]
  · intro hl
    obtain ⟨husable, hwalk⟩ := locate_eq_ok hl
    simp only [locate, husable, walk_of_directories (fun q => (h.directory_iff q).mpr) hwalk]

theorem find_of_locate (h : t.locate p = .ok place) :
    t.find p = (t.node? place).elim (.error .notFound) .ok := by
  rw [find, h]

/-- At the end of a path there is what was there, or what may be under its last name. -/
theorem Alters.find (h : Alters may t t') (hp : p.EndsIn name) (hl : t.locate p = .ok place) :
    t'.find p = t.find p ∨
      ∃ node, may name node ∧ t'.find p = node.elim (.error .notFound) .ok := by
  rw [find_of_locate hl, find_of_locate (h.locate_eq_ok_iff.mpr hl)]
  rcases h.node place with heq | ⟨last, hlast, hmay⟩
  · exact Or.inl (by rw [heq])
  · rw [hp.getLast?_of_locate hl] at hlast
    obtain rfl := Option.some.inj hlast
    exact Or.inr ⟨_, hmay, rfl⟩

theorem ne_nil_of_not_directory (h : t.node? place ≠ some .directory) : place ≠ [] := by
  rintro rfl
  exact h rfl

theorem alters_insert (h : t.node? place ≠ some .directory) (hlast : place.getLast? = some name)
    (hmay : may name (some (.file bytes))) : Alters may t ⟨t.nodes.insert place (.file bytes)⟩ := by
  have hnode := node?_insert (t := t) (ne_nil_of_not_directory h) (.file bytes)
  constructor
  · intro p
    rw [hnode]
    split_ifs with hp
    · rw [← hp]
      exact iff_of_false (by simp) h
    · exact Iff.rfl
  · intro p
    rw [hnode]
    split_ifs with hp
    · exact Or.inr ⟨name, hp ▸ hlast, hmay⟩
    · exact Or.inl rfl

theorem alters_erase (h : t.node? place ≠ some .directory) (hlast : place.getLast? = some name)
    (hmay : may name none) : Alters may t ⟨t.nodes.erase place⟩ := by
  have hnode := node?_erase (t := t) (ne_nil_of_not_directory h)
  constructor
  · intro p
    rw [hnode]
    split_ifs with hp
    · rw [← hp]
      exact iff_of_false (by simp) h
    · exact Iff.rfl
  · intro p
    rw [hnode]
    split_ifs with hp
    · exact Or.inr ⟨name, hp ▸ hlast, hmay⟩
    · exact Or.inl rfl

theorem alters_erase_file (hnode : t.node? place = some (.file bytes)) :
    t.Alters (fun _ _ => True) ⟨t.nodes.erase place⟩ := by
  have hdir : t.node? place ≠ some .directory := by rw [hnode]; simp
  exact alters_erase hdir (List.getLast?_eq_some_getLast (ne_nil_of_not_directory hdir)) trivial

/-- A file that was erased is not found again. -/
theorem find_erase_file (hl : t.locate p = .ok place) (hnode : t.node? place = some (.file bytes)) :
    (⟨t.nodes.erase place⟩ : FileTree).find p = .error .notFound := by
  have hdir : t.node? place ≠ some .directory := by rw [hnode]; simp
  rw [find_of_locate ((alters_erase_file hnode).locate_eq_ok_iff.mpr hl),
    node?_erase (ne_nil_of_not_directory hdir), if_pos rfl]
  rfl

theorem write_eq_ok (h : t.write p bytes = .ok t') : ∃ place, t.locate p = .ok place ∧
    t.node? place ≠ some .directory ∧ t' = ⟨t.nodes.insert place (.file bytes)⟩ := by
  unfold write at h
  split at h
  · cases h
  · rename_i place hl
    split at h
    · cases h
    · rename_i hdir
      exact ⟨place, hl, hdir, (Except.ok.inj h).symm⟩

theorem alters_write (hp : p.EndsIn name) (hmay : may name (some (.file bytes)))
    (h : t.write p bytes = .ok t') : Alters may t t' := by
  obtain ⟨place, hl, hdir, rfl⟩ := write_eq_ok h
  exact alters_insert hdir (hp.getLast?_of_locate hl) hmay

theorem alters_remove (hp : p.EndsIn name) (hmay : may name none) (h : t.remove p = .ok t') :
    Alters may t t' := by
  unfold remove at h
  split at h
  · cases h
  · rename_i place hl
    split at h
    · cases h
    · cases h
    · rename_i hfile
      obtain rfl := Except.ok.inj h
      exact alters_erase (by rw [hfile]; simp) (hp.getLast?_of_locate hl) hmay

theorem alters_rename (hp : p.EndsIn temp) (hd : dest.EndsIn name) (htemp : may temp none)
    (hmay : ∀ bytes, may name (some (.file bytes))) (h : t.rename p dest = .ok t') :
    Alters may t t' := by
  unfold rename at h
  split at h
  · cases h
  · cases h
  · cases h
  · rename_i source bytes place hl hread hland
    split at h
    · cases h
    · rename_i hdir
      obtain rfl := Except.ok.inj h
      have hsource : t.node? source ≠ some .directory := by
        intro hnode
        rw [read, find_of_locate hl, hnode] at hread
        cases hread
      have herase : Alters may t ⟨t.nodes.erase source⟩ :=
        alters_erase hsource (hp.getLast?_of_locate hl) htemp
      exact herase.trans (alters_insert (fun hnode => hdir ((herase.directory_iff place).mp hnode))
        (hd.getLast?_of_landing hland) (hmay bytes))

theorem touch_eq_ok (h : t.touch p = .ok t') : ∃ place, t.locate p = .ok place ∧
    t.node? place ≠ some .directory ∧
    (t' = t ∨ t.node? place = none ∧ t' = ⟨t.nodes.insert place (.file [])⟩) := by
  unfold touch at h
  split at h
  · rename_i bytes hfind
    unfold find at hfind
    split at hfind
    · cases hfind
    · rename_i place hl
      refine ⟨place, hl, fun hdir => ?_, Or.inl (Except.ok.inj h).symm⟩
      rw [hdir] at hfind
      cases hfind
  · rename_i hfind
    obtain ⟨place, hl, hdir, rfl⟩ := write_eq_ok h
    refine ⟨place, hl, hdir, Or.inr ⟨?_, rfl⟩⟩
    rw [find_of_locate hl] at hfind
    cases hnode : t.node? place with
    | none => rfl
    | some node =>
      rw [hnode] at hfind
      cases node with
      | file bytes => exact absurd rfl (hfind bytes)
      | directory => exact absurd hnode hdir

theorem touch_alters (hp : p.EndsIn name) (h : t.touch p = .ok t') :
    Alters (fun last _ => last = name) t t' := by
  obtain ⟨place, hl, hdir, rfl | ⟨-, rfl⟩⟩ := touch_eq_ok h
  · exact .refl
  · exact alters_insert hdir (hp.getLast?_of_locate hl) rfl

/-- Touching a file leaves alone whatever is there. -/
theorem node?_touch (h : t.touch p = .ok t') {q : List String} {node : FileNode}
    (hq : t.node? q = some node) : t'.node? q = some node := by
  obtain ⟨place, -, hdir, rfl | ⟨hnone, rfl⟩⟩ := touch_eq_ok h
  · exact hq
  · rw [node?_insert (ne_nil_of_not_directory hdir), if_neg, hq]
    rintro rfl
    rw [hnone] at hq
    cases hq

theorem touch_isOk (hl : t.locate p = .ok place) (hdir : t.node? place ≠ some .directory) :
    ∃ t', t.touch p = .ok t' := by
  unfold touch
  split
  · exact ⟨t, rfl⟩
  · unfold write
    rw [hl]
    dsimp only
    split
    · exact absurd ‹_› hdir
    · exact ⟨_, rfl⟩

theorem read_eq_ok {bytes : List UInt8} (h : t.read p = .ok bytes) :
    ∃ place, t.locate p = .ok place ∧ t.node? place = some (.file bytes) := by
  unfold read find at h
  cases hl : t.locate p with
  | error e => simp [hl] at h
  | ok place =>
    refine ⟨place, rfl, ?_⟩
    simp only [hl] at h
    cases hnode : t.node? place with
    | none => simp [hnode] at h
    | some node =>
      cases node with
      | file b =>
        rw [hnode] at h
        rw [Except.ok.inj h]
      | directory => simp [hnode] at h

theorem read_of_node {bytes : List UInt8} (hl : t.locate p = .ok place)
    (hnode : t.node? place = some (.file bytes)) : t.read p = .ok bytes := by
  rw [read, find_of_locate hl, hnode]
  rfl

theorem read_touch (hp : p.EndsIn name) (h : t.touch p = .ok t') {q : Path}
    {bytes : List UInt8} (hq : t.read q = .ok bytes) : t'.read q = .ok bytes := by
  obtain ⟨place, hl, hnode⟩ := read_eq_ok hq
  exact read_of_node ((touch_alters hp h).locate_eq_ok_iff.mpr hl) (node?_touch h hnode)

/-- A change of the tree succeeds, or it does nothing. -/
theorem update_cases (change : FileTree → Except FileError FileTree) (t : FileTree) :
    (∃ t', change t = .ok t' ∧ update change t = (.ok (), t')) ∨
      ∃ e, update change t = (.error e, t) := by
  unfold update
  cases change t with
  | error e => exact Or.inr ⟨e, rfl⟩
  | ok t' => exact Or.inl ⟨t', rfl, rfl⟩

theorem alters_update {change : FileTree → Except FileError FileTree}
    (h : ∀ t', change t = .ok t' → Alters may t t') : Alters may t (update change t).2 := by
  rcases update_cases change t with ⟨t', hok, hupdate⟩ | ⟨e, hupdate⟩
  · rw [hupdate]
    exact h t' hok
  · rw [hupdate]
    exact .refl

theorem update_error {change : FileTree → Except FileError FileTree} {e : FileError}
    (h : (update change t).1 = .error e) : (update change t).2 = t := by
  rcases update_cases change t with ⟨t', -, hupdate⟩ | ⟨e, hupdate⟩
  · rw [hupdate] at h
    cases h
  · rw [hupdate]

end

end FileTree

/-! ## Disks -/

/-- A call that may fail although nothing in the tree speaks against it. -/
inductive FileCall
  | makeDir (dir : Path)
  | read (path : Path)
  | createTemp (dir : Path)
  | write (path : Path) (bytes : List UInt8)
  | rename (path dest : Path)
  | remove (path : Path)
  | lock (path : Path) (exclusive : Bool)
  deriving DecidableEq

/-- Why a call failed, and how much of it was done. Of a write this is the number of bytes that were
written, and of a lock whether the lock file was made. -/
structure Accident where
  cause : FileError
  done : Nat

/-- A tree of files, how many calls were made on it, and which of all calls fail. -/
structure Disk where
  tree : FileTree
  calls : Nat
  accidents : Nat → FileCall → Option Accident

namespace Disk

/-- A call. It does what it does to the tree, or there is an accident halfway. -/
def attempt {α : Type} (call : FileCall) (halfway : Nat → FileTree → FileTree)
    (run : StateM FileTree (Except FileError α)) : StateM Disk (Except FileError α) := fun d =>
  match d.accidents d.calls call with
  | some a =>
    (.error a.cause, { d with tree := halfway a.done d.tree, calls := d.calls + 1 })
  | none =>
    let (r, t) := run d.tree
    (r, { d with tree := t, calls := d.calls + 1 })

def ask {α : Type} (question : FileTree → α) : StateM Disk α := fun d => (question d.tree, d)

/-- The tree in which a number of bytes were written. -/
def halfWrite (path : Path) (bytes : List UInt8) (done : Nat) (t : FileTree) : FileTree :=
  (FileTree.update (fun t => t.write path (bytes.take done)) t).2

/-- The tree with the lock file, if it was made. -/
def halfLock (path : Path) (done : Nat) (t : FileTree) : FileTree :=
  if done = 0 then t else (FileTree.update (fun t => t.touch path) t).2

instance : Files (StateM Disk) where
  makeDir dir := attempt (.makeDir dir) (fun _ t => t) (Files.makeDir dir)
  isPresent path := ask fun t => t.isPresent path
  isFile path := ask fun t => t.isFile path
  isDirectory path := ask fun t => t.isDirectory path
  read path := attempt (.read path) (fun _ t => t) (Files.read path)
  createTemp dir := attempt (.createTemp dir) (fun _ t => t) (Files.createTemp dir)
  write path bytes := attempt (.write path bytes) (halfWrite path bytes) (Files.write path bytes)
  rename path dest := attempt (.rename path dest) (fun _ t => t) (Files.rename path dest)
  remove path := attempt (.remove path) (fun _ t => t) (Files.remove path)
  locked path exclusive action := do
    match ← attempt (.lock path exclusive) (halfLock path)
        (FileTree.update fun t => t.touch path) with
    | .error e => return .error e
    | .ok () => return .ok (← action)

/-- The tree was altered, and the same calls fail. -/
structure Alters (may : String → Option FileNode → Prop) (d d' : Disk) : Prop where
  tree : d.tree.Alters may d'.tree
  accidents : d'.accidents = d.accidents

/-- Only questions were asked. -/
structure Unchanged (d d' : Disk) : Prop where
  tree : d'.tree = d.tree
  accidents : d'.accidents = d.accidents

/-- A temporary file. -/
def Temporary (name : String) (_ : Option FileNode) : Prop := IsTemp name

section

variable {may may' : String → Option FileNode → Prop} {d d' d'' : Disk} {dir p dest : Path}
  {name : String} {bytes : List UInt8}

theorem Alters.refl : Alters may d d := ⟨.refl, rfl⟩

theorem Alters.trans (h : Alters may d d') (h' : Alters may d' d'') : Alters may d d'' :=
  ⟨h.tree.trans h'.tree, h'.accidents.trans h.accidents⟩

theorem Alters.mono (h : Alters may d d') (hmay : ∀ name node, may name node → may' name node) :
    Alters may' d d' :=
  ⟨h.tree.mono hmay, h.accidents⟩

theorem Unchanged.refl : Unchanged d d := ⟨rfl, rfl⟩

theorem Unchanged.trans (h : Unchanged d d') (h' : Unchanged d' d'') : Unchanged d d'' :=
  ⟨h'.tree.trans h.tree, h'.accidents.trans h.accidents⟩

theorem Unchanged.alters (h : Unchanged d d') : Alters may d d' :=
  ⟨h.tree ▸ .refl, h.accidents⟩

/-! ## Calls -/

section

variable {α : Type} {call : FileCall} {halfway : Nat → FileTree → FileTree}
  {run : StateM FileTree (Except FileError α)}

theorem attempt_alters (hrun : ∀ t : FileTree, t.Alters may (run t).2)
    (hhalf : ∀ n (t : FileTree), t.Alters may (halfway n t)) (d : Disk) :
    d.Alters may (attempt call halfway run d).2 := by
  unfold attempt
  split
  · exact ⟨hhalf _ _, rfl⟩
  · exact ⟨hrun _, rfl⟩

variable (halfway run) in
theorem attempt_of_accident {a : Accident} (h : d.accidents d.calls call = some a) :
    attempt call halfway run d =
      (.error a.cause, { d with tree := halfway a.done d.tree, calls := d.calls + 1 }) := by
  rw [attempt, h]

variable (halfway run) in
theorem attempt_of_none (h : d.accidents d.calls call = none) :
    attempt call halfway run d =
      ((run d.tree).1, { d with tree := (run d.tree).2, calls := d.calls + 1 }) := by
  rw [attempt, h]
  rfl

variable (call halfway run) in
/-- What a call answers is what it answers on the tree, unless there is an accident. -/
theorem attempt_cases (d : Disk) :
    (∃ a, d.accidents d.calls call = some a ∧ (attempt call halfway run d).1 = .error a.cause) ∨
      (attempt call halfway run d).1 = (run d.tree).1 ∧
        (attempt call halfway run d).2.tree = (run d.tree).2 := by
  unfold attempt
  split
  · rename_i a ha
    exact Or.inl ⟨a, ha, rfl⟩
  · exact Or.inr ⟨rfl, rfl⟩

/-- A call that does not do anything unless it succeeds. -/
theorem attempt_error (hrun : ∀ t e, (run t).1 = .error e → (run t).2 = t) {e : FileError}
    (h : (attempt call (fun _ t => t) run d).1 = .error e) :
    Unchanged d (attempt call (fun _ t => t) run d).2 := by
  unfold attempt at h ⊢
  split
  · exact ⟨rfl, rfl⟩
  · rename_i ha
    rw [ha] at h
    exact ⟨hrun _ e h, rfl⟩

end

theorem read_unchanged (p : Path) (d : Disk) :
    Unchanged d ((Files.read p : StateM Disk _) d).2 := by
  change Unchanged d (attempt _ _ _ d).2
  unfold attempt
  split <;> exact ⟨rfl, rfl⟩

/-- The bytes of a file are read if that does not fail. -/
theorem read_apply (h : ∀ n, d.accidents n (.read p) = none) :
    ((Files.read p : StateM Disk _) d).1 = d.tree.read p := by
  rcases attempt_cases (.read p) (fun _ t => t) (Files.read p : StateM FileTree _) d with
    ⟨a, ha, -⟩ | ⟨hread, -⟩
  · rw [h] at ha
    cases ha
  · exact hread

theorem read_eq_ok (h : ((Files.read p : StateM Disk _) d).1 = .ok bytes) :
    d.tree.read p = .ok bytes := by
  rcases attempt_cases (.read p) (fun _ t => t) (Files.read p : StateM FileTree _) d with
    ⟨a, -, hread⟩ | ⟨hread, -⟩
  · cases hread.symm.trans h
  · exact hread.symm.trans h

theorem createTemp_alters (dir : Path) (d : Disk) :
    d.Alters Temporary ((Files.createTemp dir : StateM Disk _) d).2 := by
  refine attempt_alters (fun t => ?_) (fun _ _ => .refl) d
  have htemp := t.isTemp_freshName dir
  simp only [Files.createTemp]
  split
  · exact .refl
  · rename_i t' ht'
    exact FileTree.alters_write (htemp.endsIn_join dir) htemp ht'

theorem createTemp_eq_ok (h : ((Files.createTemp dir : StateM Disk _) d).1 = .ok p) :
    ∃ name, IsTemp name ∧ p.EndsIn name := by
  have htemp := d.tree.isTemp_freshName dir
  rcases attempt_cases (.createTemp dir) (fun _ t => t)
    (Files.createTemp dir : StateM FileTree _) d with ⟨a, -, hcreate⟩ | ⟨hcreate, -⟩
  · cases hcreate.symm.trans h
  · have hok := hcreate.symm.trans h
    simp only [Files.createTemp] at hok
    split at hok
    · cases hok
    · obtain rfl := Except.ok.inj hok
      exact ⟨_, htemp, htemp.endsIn_join dir⟩

theorem write_alters (hp : p.EndsIn name) (hmay : ∀ bytes, may name (some (.file bytes)))
    (bytes : List UInt8) (d : Disk) : d.Alters may ((Files.write p bytes : StateM Disk _) d).2 :=
  attempt_alters (fun _ => FileTree.alters_update fun _ => FileTree.alters_write hp (hmay _))
    (fun _ _ => FileTree.alters_update fun _ => FileTree.alters_write hp (hmay _)) d

theorem remove_alters (hp : p.EndsIn name) (hmay : may name none) (d : Disk) :
    d.Alters may ((Files.remove p : StateM Disk _) d).2 :=
  attempt_alters (fun _ => FileTree.alters_update fun _ => FileTree.alters_remove hp hmay)
    (fun _ _ => .refl) d

theorem rename_alters {temp : String} (hp : p.EndsIn temp) (hd : dest.EndsIn name)
    (htemp : may temp none) (hmay : ∀ bytes, may name (some (.file bytes))) (d : Disk) :
    d.Alters may ((Files.rename p dest : StateM Disk _) d).2 :=
  attempt_alters
    (fun _ => FileTree.alters_update fun _ => FileTree.alters_rename hp hd htemp hmay)
    (fun _ _ => .refl) d

theorem rename_error {e : FileError} (h : ((Files.rename p dest : StateM Disk _) d).1 = .error e) :
    Unchanged d ((Files.rename p dest : StateM Disk _) d).2 :=
  attempt_error (fun _ _ h => FileTree.update_error h) h

theorem locked_eq {α : Type} (p : Path) (exclusive : Bool) (action : StateM Disk α) :
    (Files.locked p exclusive action : StateM Disk _) =
      attempt (.lock p exclusive) (halfLock p) (FileTree.update fun t => t.touch p) >>= fun
        | .error e => return .error e
        | .ok () => do return .ok (← action) := rfl

/-- An action runs while the lock is held. If the lock is not to be had its file may have been
made. -/
theorem locked_cases {α : Type} (p : Path) (exclusive : Bool) (action : StateM Disk α) (d : Disk) :
    (∃ e d₁, (Files.locked p exclusive action : StateM Disk _) d = (.error e, d₁) ∧
      (d₁.tree = d.tree ∨ d.tree.touch p = .ok d₁.tree)) ∨
    ∃ d₁, d.tree.touch p = .ok d₁.tree ∧ d₁.accidents = d.accidents ∧
      (Files.locked p exclusive action : StateM Disk _) d = (.ok (action d₁).1, (action d₁).2) := by
  rw [locked_eq, bind_apply]
  unfold attempt
  split
  · rename_i a ha
    refine Or.inl ⟨a.cause, _, rfl, ?_⟩
    dsimp only
    unfold halfLock
    split_ifs
    · exact Or.inl rfl
    · rcases FileTree.update_cases (fun t => t.touch p) d.tree with
        ⟨t', htouch, hupdate⟩ | ⟨e, hupdate⟩
      · exact Or.inr (by rw [hupdate]; exact htouch)
      · exact Or.inl (by rw [hupdate])
  · rcases FileTree.update_cases (fun t => t.touch p) d.tree with
      ⟨t', htouch, hupdate⟩ | ⟨e, hupdate⟩
    · rw [hupdate]
      exact Or.inr ⟨⟨t', d.calls + 1, d.accidents⟩, htouch, rfl, rfl⟩
    · rw [hupdate]
      exact Or.inl ⟨e, _, rfl, Or.inl rfl⟩

theorem locked_apply {α : Type} {exclusive : Bool} {t : FileTree} (action : StateM Disk α)
    (h : ∀ n, d.accidents n (.lock p exclusive) = none) (htouch : d.tree.touch p = .ok t) :
    ∃ d₁, d₁.tree = t ∧ d₁.accidents = d.accidents ∧
      (Files.locked p exclusive action : StateM Disk _) d = (.ok (action d₁).1, (action d₁).2) := by
  refine ⟨⟨t, d.calls + 1, d.accidents⟩, rfl, rfl, ?_⟩
  rw [locked_eq, bind_apply, attempt, h]
  simp only [FileTree.update, htouch]
  rfl

/-! ## Files -/

/-- A file that is replaced is altered only if the replacement succeeds. Besides there may be a
temporary file. -/
theorem replaceFile_alters (dir dest : Path) (bytes : List UInt8) (d : Disk) :
    let out := (replaceFile dir dest bytes : StateM Disk _) d
    (∀ e, out.1 = .error e → d.Alters Temporary out.2) ∧
      ∀ name, dest.EndsIn name → d.Alters (fun last _ => IsTemp last ∨ last = name) out.2 := by
  -- whoever alters only the temporary file has done with both
  have hboth : ∀ {r : Except StoreError Unit} {d' : Disk}, d.Alters Temporary d' →
      (∀ e, r = .error e → d.Alters Temporary d') ∧
        ∀ name, dest.EndsIn name → d.Alters (fun last _ => IsTemp last ∨ last = name) d' :=
    fun h => ⟨fun _ _ => h, fun _ _ => h.mono fun _ _ => Or.inl⟩
  have hcreate := createTemp_alters dir d
  have htemp : ∀ p, ((Files.createTemp dir : StateM Disk _) d).1 = .ok p →
      ∃ name, IsTemp name ∧ p.EndsIn name := fun _ => createTemp_eq_ok
  rw [replaceFile, bind_apply]
  generalize (Files.createTemp dir : StateM Disk _) d = created at hcreate htemp ⊢
  obtain ⟨_ | temp, d₁⟩ := created
  · exact hboth hcreate
  · obtain ⟨last, hlast, hends⟩ := htemp temp rfl
    have hremove : ∀ d : Disk, d.Alters Temporary ((Files.remove temp : StateM Disk _) d).2 :=
      remove_alters hends hlast
    have hwrite : d.Alters Temporary ((Files.write temp bytes : StateM Disk _) d₁).2 :=
      hcreate.trans (write_alters hends (fun _ => hlast) bytes d₁)
    simp only [bind_apply]
    generalize (Files.write temp bytes : StateM Disk _) d₁ = written at hwrite ⊢
    obtain ⟨_ | _, d₂⟩ := written
    · exact hboth (hwrite.trans (hremove d₂))
    · have herror : ∀ e, ((Files.rename temp dest : StateM Disk _) d₂).1 = .error e →
          Unchanged d₂ ((Files.rename temp dest : StateM Disk _) d₂).2 := fun _ => rename_error
      have hrename : ∀ name, dest.EndsIn name → d₂.Alters (fun last _ => IsTemp last ∨ last = name)
          ((Files.rename temp dest : StateM Disk _) d₂).2 := fun _ h =>
        rename_alters hends h (.inl hlast) (fun _ => .inr rfl) d₂
      simp only [bind_apply]
      generalize (Files.rename temp dest : StateM Disk _) d₂ = renamed at herror hrename ⊢
      obtain ⟨e | _, d₃⟩ := renamed
      · exact hboth ((hwrite.trans (herror e rfl).alters).trans (hremove d₃))
      · refine ⟨fun e he => ?_, fun name hname => ?_⟩
        · cases he
        · exact (hwrite.mono fun _ _ => Or.inl).trans (hrename name hname)

/-- Where no temporary file can be made no file is replaced. -/
theorem replaceFile_of_createTemp {a : Accident}
    (h : ∀ n, d.accidents n (.createTemp dir) = some a) (dest : Path) (bytes : List UInt8) :
    (replaceFile dir dest bytes : StateM Disk _) d =
      (.error (.io dir a.cause), { d with calls := d.calls + 1 }) := by
  have hcreate := attempt_of_accident (fun _ t => t)
    (Files.createTemp dir : StateM FileTree _) (h d.calls)
  change (Files.createTemp dir : StateM Disk _) d = _ at hcreate
  rw [replaceFile, bind_apply, hcreate]
  rfl

/-- A file that is removed is there as it was, or it is gone. -/
theorem removeFile_alters (hp : p.EndsIn name) (hmay : may name none) (d : Disk) :
    d.Alters may ((removeFile p : StateM Disk _) d).2 := by
  have hpresent : (Files.isPresent p : StateM Disk _) d = (d.tree.isPresent p, d) := rfl
  rw [removeFile, bind_apply, hpresent]
  dsimp only
  split
  · exact remove_alters hp hmay d
  · exact .refl

theorem removeFiles_alters {paths : List Path}
    (hpaths : ∀ p ∈ paths, ∃ name, p.EndsIn name ∧ may name none) (d : Disk) :
    d.Alters may ((Store.removeFiles paths : StateM Disk _) d).2 := by
  induction paths generalizing d with
  | nil => exact .refl
  | cons p rest ih =>
    rw [List.forall_mem_cons] at hpaths
    obtain ⟨⟨name, hp, hmay⟩, hrest⟩ := hpaths
    have hremove := removeFile_alters hp hmay d
    rw [Store.removeFiles, bind_apply]
    generalize (removeFile p : StateM Disk _) d = removed at hremove ⊢
    obtain ⟨_ | _, d₁⟩ := removed
    · exact hremove
    · exact hremove.trans (ih hrest d₁)

theorem dropAll_alters {stale : List (ContentHash × Path)}
    (hstale : ∀ s ∈ stale, ∃ name, s.2.EndsIn name ∧ may name none) (entries : Entries) (d : Disk) :
    d.Alters may ((Store.dropAll entries stale : StateM Disk _) d).2 := by
  induction stale generalizing entries d with
  | nil => exact .refl
  | cons s rest ih =>
    rw [List.forall_mem_cons] at hstale
    obtain ⟨⟨name, hp, hmay⟩, hrest⟩ := hstale
    have hremove := removeFile_alters hp hmay d
    rw [Store.dropAll, bind_apply]
    generalize (removeFile s.2 : StateM Disk _) d = removed at hremove ⊢
    obtain ⟨_ | _, d₁⟩ := removed
    · exact hremove
    · exact hremove.trans (ih hrest (entries.erase s.1) d₁)

end

end Disk

end KernelForge

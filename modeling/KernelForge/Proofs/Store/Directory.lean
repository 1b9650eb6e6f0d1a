import KernelForge.Proofs.State
import KernelForge.Proofs.Store.Paths
import KernelForge.Store.Basic
import Mathlib.Logic.Function.Basic

/-!
# A directory of files

The file calls of a store all concern files of one directory, which holds no directories. What it
holds is a function from names to bytes, each call changes or asks for the bytes of one name, and
everything outside the directory stays as it was.
-/
namespace KernelForge.FileTree

/-- What a directory without directories holds. -/
abbrev Contents := String → Option (List UInt8)

/-- A path leads to a directory that holds nothing. -/
structure Ready (base : FileTree) (dir : Path) (place : List String) : Prop where
  opens : base.Opens dir place
  empty : ∀ p, p ≠ [] → base.node? (place ++ p) = none

/-- The tree is `base` with files in the directory of a place. -/
structure Filled (base : FileTree) (place : List String) (t : FileTree) (f : Contents) : Prop where
  files : ∀ name, t.node? (place ++ [name]) = (f name).map .file
  outside : ∀ p, (∀ name, p ≠ place ++ [name]) → t.node? p = base.node? p

/-- A name under which a store may keep a file in the directory. -/
structure Usable (dir : Path) (name : String) : Prop where
  plain : PlainName name
  fits : (dir.join name).utf8ByteSize ≤ longestPath

theorem filled_base {base : FileTree} {dir : Path} {place : List String} (h : base.Ready dir place) :
    Filled base place base fun _ => none :=
  ⟨fun name => h.empty [name] (by simp), fun _ _ => rfl⟩

theorem walk_of_directories {base t : FileTree}
    (h : ∀ p, base.node? p = some .directory → t.node? p = some .directory) {names : List String}
    {p q : List String} (hw : base.walk p names = .ok q) : t.walk p names = .ok q := by
  induction names generalizing p with
  | nil => exact hw
  | cons name rest ih =>
    rw [walk] at hw ⊢
    cases hs : base.step p name with
    | error e => simp [hs] at hw
    | ok next =>
      have hdir : base.node? p = some .directory := by
        unfold step at hs
        split at hs
        · cases hs
        · cases hs
        · assumption
      have hstep : t.step p name = .ok next := by
        unfold step at hs ⊢
        rw [hdir] at hs
        rw [h p hdir]
        exact hs
      rw [hs] at hw
      rw [hstep]
      exact ih hw

theorem node?_insert {t : FileTree} {place : List String} (hne : place ≠ []) (node : FileNode)
    (p : List String) :
    (⟨t.nodes.insert place node⟩ : FileTree).node? p = if place = p then some node else t.node? p := by
  unfold node?
  cases p with
  | nil => simp [hne]
  | cons name rest => simp [Table.get?_insert]

theorem node?_erase {t : FileTree} {place : List String} (hne : place ≠ []) (p : List String) :
    (⟨t.nodes.erase place⟩ : FileTree).node? p = if place = p then none else t.node? p := by
  unfold node?
  cases p with
  | nil => simp [hne]
  | cons name rest => simp [Table.get?_erase]

section

variable {base t : FileTree} {dir : Path} {place : List String} {f : Contents} {name : String}
  {bytes : List UInt8}

theorem Filled.opens (hf : Filled base place t f) (hb : base.Ready dir place) :
    t.Opens dir place := by
  have hdirs : ∀ p, base.node? p = some .directory → t.node? p = some .directory := by
    intro p hp
    rw [hf.outside p fun name heq => ?_, hp]
    rw [heq, hb.empty [name] (by simp)] at hp
    cases hp
  refine ⟨?_, hdirs place hb.opens.directory⟩
  rcases hb.opens.leads with h | h
  · exact Or.inl h
  · right
    obtain ⟨husable, hwalk⟩ := locate_eq_ok h
    simp only [locate, husable, walk_of_directories hdirs hwalk]

theorem Filled.insert (hf : Filled base place t f) (name : String) (bytes : List UInt8) :
    Filled base place ⟨t.nodes.insert (place ++ [name]) (.file bytes)⟩
      (Function.update f name (some bytes)) := by
  have hne : place ++ [name] ≠ [] := by simp
  constructor
  · intro other
    rw [node?_insert hne, Function.update_apply, hf.files]
    by_cases h : other = name
    · subst h
      simp
    · simp [h, Ne.symm h]
  · intro p hp
    rw [node?_insert hne, if_neg (Ne.symm (hp name)), hf.outside p hp]

theorem Filled.erase (hf : Filled base place t f) (name : String) :
    Filled base place ⟨t.nodes.erase (place ++ [name])⟩ (Function.update f name none) := by
  have hne : place ++ [name] ≠ [] := by simp
  constructor
  · intro other
    rw [node?_erase hne, Function.update_apply, hf.files]
    by_cases h : other = name
    · subst h
      simp
    · simp [h, Ne.symm h]
  · intro p hp
    rw [node?_erase hne, if_neg (Ne.symm (hp name)), hf.outside p hp]

end

/-! ## File calls -/

section

variable {base t : FileTree} {dir : Path} {place : List String} {f : Contents} {name : String}
  (hb : base.Ready dir place) (hf : Filled base place t f) (hu : Usable dir name)
include hb hf hu

theorem Filled.find :
    t.find (dir.join name) = (f name).elim (.error .notFound) fun b => .ok (.file b) := by
  simp only [FileTree.find, (hf.opens hb).locate_join hu.plain hu.fits, hf.files]
  cases f name <;> rfl

theorem Filled.isPresent : t.isPresent (dir.join name) = (f name).isSome := by
  rw [FileTree.isPresent, hf.find hb hu]
  cases f name <;> rfl

theorem Filled.isFile : t.isFile (dir.join name) = (f name).isSome := by
  rw [FileTree.isFile, hf.find hb hu]
  cases f name <;> rfl

theorem Filled.read {bytes : List UInt8} (h : f name = some bytes) :
    t.read (dir.join name) = .ok bytes := by
  rw [FileTree.read, hf.find hb hu, h]
  rfl

theorem Filled.write (bytes : List UInt8) : ∃ t', t.write (dir.join name) bytes = .ok t' ∧
    Filled base place t' (Function.update f name (some bytes)) := by
  refine ⟨_, ?_, hf.insert name bytes⟩
  simp only [FileTree.write, (hf.opens hb).locate_join hu.plain hu.fits, hf.files]
  cases f name <;> rfl

theorem Filled.remove {bytes : List UInt8} (h : f name = some bytes) :
    ∃ t', t.remove (dir.join name) = .ok t' ∧
      Filled base place t' (Function.update f name none) := by
  refine ⟨_, ?_, hf.erase name⟩
  simp only [FileTree.remove, (hf.opens hb).locate_join hu.plain hu.fits, hf.files, h]
  rfl

theorem Filled.rename {temp : String} {bytes : List UInt8} (htemp : Usable dir temp)
    (h : f temp = some bytes) : ∃ t', t.rename (dir.join temp) (dir.join name) = .ok t' ∧
      Filled base place t'
        (Function.update (Function.update f temp none) name (some bytes)) := by
  refine ⟨_, ?_, (hf.erase temp).insert name bytes⟩
  have hopens := hf.opens hb
  simp only [FileTree.rename, hopens.locate_join htemp.plain htemp.fits, hf.read hb htemp h,
    hopens.landing_join hu.plain hu.fits, hf.files]
  cases f name <;> rfl

theorem Filled.touch_of_some {bytes : List UInt8} (h : f name = some bytes) :
    t.touch (dir.join name) = .ok t := by
  rw [FileTree.touch, hf.find hb hu, h]
  rfl

theorem Filled.touch_of_none (h : f name = none) : ∃ t', t.touch (dir.join name) = .ok t' ∧
    Filled base place t' (Function.update f name (some [])) := by
  obtain ⟨t', hwrite, hf'⟩ := hf.write hb hu []
  refine ⟨t', ?_, hf'⟩
  rw [FileTree.touch, hf.find hb hu, h]
  exact hwrite

end

end KernelForge.FileTree

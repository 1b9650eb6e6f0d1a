import KernelForge.Proofs.Store.Places

/-!
# Kernel files of their own

A configuration may name its files so that two of them are one. Where it does not, a kernel file is
neither the index nor its lock nor a temporary file, and has one hash. This is so if no slash is in
the extension and neither the index nor its lock is named like a kernel file.
-/
namespace KernelForge

/-- Two paths may lead to one file. -/
def Path.Meets (p q : Path) : Prop :=
  ∃ (t : FileTree) (place : List String), t.LeadsTo p place ∧ t.LeadsTo q place

theorem Path.Meets.endsIn {p q : Path} (h : p.Meets q) {name : String} (hp : p.EndsIn name) :
    q.EndsIn name := by
  obtain ⟨t, place, hplace, hplace'⟩ := h
  obtain ⟨name', hq⟩ := hplace'.endsIn
  have hlast := hp.getLast?_of_locate hplace.locate
  rw [hq.getLast?_of_locate hplace'.locate] at hlast
  exact Option.some.inj hlast ▸ hq

namespace StoreConfig

/-- The path of the file of a kernel. -/
def kernelPath (c : StoreConfig) (role : Role) (h : ContentHash) : Path :=
  c.filePath (c.fileName role.name h)

/-- A kernel file is none of the other files of the store, whatever directories there are. -/
structure Separate (c : StoreConfig) : Prop where
  kernel : ∀ {role role' h h'}, (c.kernelPath role h).Meets (c.kernelPath role' h') → h = h'
  index : ∀ {role h}, ¬ (c.kernelPath role h).Meets c.indexPath
  lock : ∀ {role h}, ¬ (c.kernelPath role h).Meets c.lockPath
  temp : ∀ {role h n}, ¬ (c.kernelPath role h).Meets (c.dir.join (FileTree.tempName n))

theorem separate_of_keyed {c : StoreConfig} (hext : '/' ∉ c.extension.toList)
    (hindex : ∀ h name, c.indexPath.EndsIn name → ¬ Keyed c.extension h name)
    (hlock : ∀ h name, c.lockPath.EndsIn name → ¬ Keyed c.extension h name) : c.Separate := by
  have hkeyed : ∀ role h, ∃ name, (c.kernelPath role h).EndsIn name ∧ Keyed c.extension h name :=
    fun role h => (c.keyed_fileName role.name h).endsIn_join hext c.dir
  constructor
  · intro role role' h h' hmeets
    obtain ⟨name, hname, hkey⟩ := hkeyed role h
    obtain ⟨name', hname', hkey'⟩ := hkeyed role' h'
    rw [(hmeets.endsIn hname).unique hname'] at hkey
    exact hkey.unique hkey'
  · intro role h hmeets
    obtain ⟨name, hname, hkey⟩ := hkeyed role h
    exact hindex h name (hmeets.endsIn hname) hkey
  · intro role h hmeets
    obtain ⟨name, hname, hkey⟩ := hkeyed role h
    exact hlock h name (hmeets.endsIn hname) hkey
  · intro role h n hmeets
    obtain ⟨name, hname, hkey⟩ := hkeyed role h
    have htemp := FileTree.isTemp_tempName n
    rw [(hmeets.endsIn hname).unique (htemp.endsIn_join c.dir)] at hkey
    exact htemp.not_keyed _ h hkey

/-- The files of a store that is told nothing but its directory are separate. -/
theorem separate_ofDir (dir : Path) : (ofDir dir).Separate := by
  have hshort : ∀ {h file name}, IsFile file → file.toList.length < 21 →
      (dir.join file).EndsIn name → ¬ Keyed "cpp" h name := by
    intro h file name hfile hlength hname
    obtain rfl := hname.unique (hfile.plain.1.endsIn_join dir)
    rintro ⟨front, heq⟩
    rw [heq, String.toList_append, List.length_append, length_kernelEnd] at hlength
    have hcpp : "cpp".toList.length = 3 := rfl
    omega
  have hext : '/' ∉ "cpp".toList := by decide
  have hindex : indexFile.toList.length < 21 := by decide
  have hlock : lockFile.toList.length < 21 := by decide
  exact separate_of_keyed hext (fun _ _ => hshort .index hindex) (fun _ _ => hshort .lock hlock)

end StoreConfig

end KernelForge

import KernelForge.Proofs.Store.Names

/-!
# The ends of paths

The last name of a path tells what the path may lead to. The temporary files, the index and the
kernel files differ in it wherever they lie, and two kernel files of one ending differ in it if
their hashes do.
-/
namespace KernelForge

namespace Path

theorem exists_last_slash {cs : List Char} (h : '/' ∈ cs) :
    ∃ front back, cs = front ++ '/' :: back ∧ '/' ∉ back := by
  obtain ⟨back, front, hreverse, hback⟩ := List.eq_append_cons_of_mem (List.mem_reverse.mpr h)
  refine ⟨front.reverse, back.reverse, ?_, by simpa using hback⟩
  have hcs := congrArg List.reverse hreverse
  simpa using hcs

/-- What is appended to a path goes to its last part. -/
theorem parts_append (p : Path) : ∃ front last, p.parts = front ++ [last] ∧
    ∀ s : String, '/' ∉ s.toList → parts (p ++ s) = front ++ [last ++ s] := by
  by_cases hp : '/' ∈ p.toList
  · obtain ⟨front, back, hsplit, hback⟩ := exists_last_slash hp
    obtain rfl : p = String.ofList front ++ "/" ++ String.ofList back := by
      rw [← String.toList_inj, hsplit]
      simp
    refine ⟨parts (String.ofList front), String.ofList back,
      parts_slash (by simpa using hback), fun s hs => ?_⟩
    rw [String.append_assoc, parts_slash (by simp [hback, hs])]
  · refine ⟨[], p, parts_plain hp, fun s hs => parts_plain ?_⟩
    simp [hp, hs]

/-- A path ends in a name that leads to a place of its own. -/
structure EndsIn (p : Path) (name : String) : Prop where
  last : p.parts.getLast? = some name
  nonempty : name ≠ ""
  notHere : name ≠ "."
  notUp : name ≠ ".."

theorem EndsIn.unique {p : Path} {name name' : String} (h : p.EndsIn name) (h' : p.EndsIn name') :
    name = name' := Option.some.inj (h.last.symm.trans h'.last)

theorem isAbsolute_append {front s : String} (hs : '/' ∉ s.toList) :
    isAbsolute (front ++ s) = isAbsolute front := by
  have hhead : s.toList.head? ≠ some '/' := fun h => hs (List.mem_of_mem_head? h)
  simp only [isAbsolute, String.startsWith_char_eq_head?, String.toList_append]
  cases front.toList with
  | nil =>
    rw [List.nil_append, beq_eq_false_iff_ne.mpr hhead]
    rfl
  | cons c rest => rfl

theorem join_append (dir front : Path) {s : String} (hs : '/' ∉ s.toList) :
    dir.join (front ++ s) = dir.join front ++ s := by
  unfold join
  rw [isAbsolute_append hs]
  split_ifs
  · rfl
  · rw [String.append_assoc]
  · rw [String.append_assoc, String.append_assoc, String.append_assoc]

/-- A joined path ends as the name does, up to its last slash. -/
theorem getLast?_parts_join (dir front : Path) {s : String} (hs : '/' ∉ s.toList) :
    ∃ last, (dir.join (front ++ s)).parts.getLast? = some (last ++ s) := by
  obtain ⟨_, last, -, happend⟩ := parts_append (dir.join front)
  refine ⟨last, ?_⟩
  rw [join_append dir front hs, happend s hs, List.getLast?_concat]

theorem getLast?_parts_join_plain (dir : Path) {name : String} (h : '/' ∉ name.toList) :
    (dir.join name).parts.getLast? = some name := by
  by_cases hne : dir = ""
  · rw [hne, join_of_empty h, parts_plain h, List.getLast?_singleton]
  · by_cases hslash : dir.toList.getLast? = some '/'
    · obtain ⟨front, hfront⟩ := List.getLast?_eq_some_iff.mp hslash
      obtain rfl : dir = String.ofList front ++ "/" := by
        rw [← String.toList_inj]
        simpa using hfront
      rw [join_of_slash h hslash, parts_slash h, List.getLast?_concat]
    · rw [join_of_no_slash h hne hslash, parts_slash h, List.getLast?_concat]

end Path

namespace FileTree

theorem step_own {t : FileTree} {place q : List String} {name : String} (hne : name ≠ "")
    (hhere : name ≠ ".") (hup : name ≠ "..") (h : t.step place name = .ok q) :
    q = place ++ [name] := by
  unfold step at h
  split at h
  · cases h
  · cases h
  · simp only [hne, hhere, or_self, if_false, hup] at h
    split_ifs at h
    exact (Except.ok.inj h).symm

theorem walk_concat {t : FileTree} {place q : List String} {front : List String} {name : String}
    (h : t.walk place (front ++ [name]) = .ok q) :
    ∃ above, t.walk place front = .ok above ∧ t.step above name = .ok q := by
  rw [walk_append] at h
  cases hw : t.walk place front with
  | error e => simp [hw, Except.bind] at h
  | ok above =>
    have hlast : t.walk above [name] = .ok q := by simpa [hw, Except.bind] using h
    rw [walk] at hlast
    cases hs : t.step above name with
    | error e => simp [hs] at hlast
    | ok r =>
      rw [hs] at hlast
      exact ⟨above, rfl, hs.trans hlast⟩

end FileTree

theorem PlainName.endsIn_join {name : String} (h : PlainName name) (dir : Path) :
    (dir.join name).EndsIn name :=
  ⟨Path.getLast?_parts_join_plain dir h.slash, h.nonempty, h.notHere, h.notUp⟩

theorem endsIn_of_length {p : Path} {name : String} (hlast : p.parts.getLast? = some name)
    (hlong : 2 < name.toList.length) : p.EndsIn name := by
  refine ⟨hlast, ?_, ?_, ?_⟩ <;>
  · rintro rfl
    simp at hlong

section

variable {t : FileTree} {p : Path} {name : String} {place : List String} (hp : p.EndsIn name)
include hp

theorem Path.EndsIn.getLast?_of_locate (h : t.locate p = .ok place) :
    place.getLast? = some name := by
  obtain ⟨-, hwalk⟩ := FileTree.locate_eq_ok h
  obtain ⟨front, hfront⟩ := List.getLast?_eq_some_iff.mp hp.last
  rw [hfront] at hwalk
  obtain ⟨above, -, hstep⟩ := FileTree.walk_concat hwalk
  rw [FileTree.step_own hp.nonempty hp.notHere hp.notUp hstep, List.getLast?_concat]

theorem Path.EndsIn.getLast?_of_landing (h : t.landing p = .ok place) :
    place.getLast? = some name := by
  obtain ⟨front, hfront⟩ := List.getLast?_eq_some_iff.mp hp.last
  unfold FileTree.landing at h
  split at h
  · cases h
  · cases h
  · rename_i parts husable
    obtain ⟨-, -, -, rfl⟩ := FileTree.usableParts_eq_ok husable
    rw [hfront, FileTree.dropSlashes_append hp.nonempty] at h
    simp only [List.getLast?_concat] at h
    split at h
    · cases h
    · rename_i hlast
      cases hlast
    · cases h
    · cases h
    · rename_i hlast
      obtain rfl := Option.some.inj hlast
      split at h
      · cases h
      · rename_i q hstep
        split_ifs at h
        obtain rfl := Except.ok.inj h
        rw [FileTree.step_own hp.nonempty hp.notHere hp.notUp hstep, List.getLast?_concat]

theorem Path.EndsIn.append {s : String} (hs : '/' ∉ s.toList)
    (hlong : 2 < s.toList.length) : (p ++ s).EndsIn (name ++ s) := by
  obtain ⟨front, last, hparts, happend⟩ := Path.parts_append p
  have hlast := hp.last
  rw [hparts, List.getLast?_concat] at hlast
  obtain rfl := Option.some.inj hlast
  refine endsIn_of_length (by rw [happend s hs, List.getLast?_concat]) ?_
  rw [String.toList_append, List.length_append]
  omega

/-- Where a longer name can be followed, so can a shorter one. -/
theorem Path.EndsIn.locate_of_append {s : String} (hs : '/' ∉ s.toList)
    (hlong : 2 < s.toList.length) (h : t.locate (p ++ s) = .ok place) :
    ∃ place', t.locate p = .ok place' := by
  have hends := hp.append hs hlong
  obtain ⟨front, last, hparts, happend⟩ := Path.parts_append p
  have hlast := hp.last
  rw [hparts, List.getLast?_concat] at hlast
  obtain rfl := Option.some.inj hlast
  obtain ⟨husable, hwalk⟩ := FileTree.locate_eq_ok h
  obtain ⟨hnul, -, hlen, -⟩ := FileTree.usableParts_eq_ok husable
  rw [happend s hs] at hwalk
  obtain ⟨above, habove, hstep⟩ := FileTree.walk_concat hwalk
  have hne : p ≠ "" := by
    rintro rfl
    have hempty : Path.parts "" = [""] := Path.parts_plain (by decide)
    rw [hempty] at hparts
    have hlast := congrArg List.getLast? hparts
    rw [List.getLast?_concat] at hlast
    exact hp.nonempty (Option.some.inj hlast).symm
  have hsize := String.utf8ByteSize_append (s := p) (t := s)
  have hname := String.utf8ByteSize_append (s := last) (t := s)
  refine ⟨above ++ [last], ?_⟩
  have hfront : t.step above last = .ok (above ++ [last]) := by
    unfold FileTree.step at hstep ⊢
    split at hstep
    · cases hstep
    · cases hstep
    · rename_i hdir
      simp only [hends.nonempty, hends.notHere, or_self, if_false, hends.notUp] at hstep
      split_ifs at hstep with hshort
      simp only [hp.nonempty, hp.notHere, or_self, if_false, hp.notUp]
      rw [if_neg (by omega)]
  have husable' : FileTree.usableParts p = .ok p.parts := by
    refine FileTree.usableParts_of (fun hmem => hnul ?_) hne (by omega)
    rw [String.toList_append]
    exact List.mem_append_left _ hmem
  simp only [FileTree.locate, husable', hparts, FileTree.walk_append, habove, Except.bind,
    FileTree.walk, hfront]

end

/-! ## Temporary files and kernel files -/

/-- The name of a temporary file. -/
def IsTemp (name : String) : Prop :=
  ∃ rest : String, name = ".tmp" ++ rest ∧ '_' ∉ rest.toList ∧ '/' ∉ rest.toList

/-- The end of the name of a kernel file. -/
def kernelEnd (extension : String) (h : ContentHash) : String :=
  "_" ++ (h.text ++ ("." ++ extension))

/-- A name that ends like that of the kernel file of a hash. -/
def Keyed (extension : String) (h : ContentHash) (name : String) : Prop :=
  ∃ front : String, name = front ++ kernelEnd extension h

theorem length_kernelEnd (extension : String) (h : ContentHash) :
    (kernelEnd extension h).toList.length = 18 + extension.toList.length := by
  simp [kernelEnd, ContentHash.text, Text.Hex.length_fixed]
  omega

theorem Keyed.unique {extension : String} {h h' : ContentHash} {name : String}
    (hkey : Keyed extension h name) (hkey' : Keyed extension h' name) : h = h' := by
  obtain ⟨front, rfl⟩ := hkey
  obtain ⟨front', heq⟩ := hkey'
  have hlist := congrArg String.toList heq
  rw [String.toList_append, String.toList_append] at hlist
  obtain ⟨-, hend⟩ := List.append_inj' hlist (by rw [length_kernelEnd, length_kernelEnd])
  simp only [kernelEnd, String.toList_append, List.append_cancel_left_eq,
    List.append_cancel_right_eq] at hend
  exact ContentHash.text_injective (String.toList_inj.mp hend)

theorem IsTemp.not_keyed {name : String} (htemp : IsTemp name) (extension : String)
    (h : ContentHash) : ¬ Keyed extension h name := by
  obtain ⟨rest, rfl, hrest, -⟩ := htemp
  rintro ⟨front, heq⟩
  have hmem : '_' ∈ (front ++ kernelEnd extension h).toList := by simp [kernelEnd]
  rw [← heq, String.toList_append] at hmem
  rcases List.mem_append.mp hmem with hmem | hmem
  · exact absurd hmem (by decide)
  · exact hrest hmem

theorem slash_kernelEnd {extension : String} (hext : '/' ∉ extension.toList) (h : ContentHash) :
    '/' ∉ (kernelEnd extension h).toList := by
  intro hmem
  simp only [kernelEnd, String.toList_append, List.mem_append, ContentHash.text,
    String.toList_ofList] at hmem
  rcases hmem with hmem | hmem | hmem | hmem
  · exact absurd hmem (by decide)
  · obtain ⟨d, hd, hdigit⟩ := Text.Hex.mem_fixed hmem
    exact (Text.Hex.digit_plain hd).1 hdigit.symm
  · exact absurd hmem (by decide)
  · exact hext hmem

/-- A path to a kernel file ends like one, whatever directories it leads through. -/
theorem Keyed.endsIn_join {extension : String} (hext : '/' ∉ extension.toList) {h : ContentHash}
    {file : String} (hkey : Keyed extension h file) (dir : Path) :
    ∃ name, (dir.join file).EndsIn name ∧ Keyed extension h name := by
  obtain ⟨front, rfl⟩ := hkey
  obtain ⟨last, hlast⟩ := Path.getLast?_parts_join dir front (slash_kernelEnd hext h)
  refine ⟨_, endsIn_of_length hlast ?_, ⟨last, rfl⟩⟩
  rw [String.toList_append, List.length_append, length_kernelEnd]
  omega

theorem IsTemp.endsIn_join {name : String} (htemp : IsTemp name) (dir : Path) :
    (dir.join name).EndsIn name := by
  obtain ⟨rest, rfl, -, hslash⟩ := htemp
  have hslash' : '/' ∉ (".tmp" ++ rest).toList := by
    rw [String.toList_append, List.mem_append, not_or]
    exact ⟨by decide, hslash⟩
  refine endsIn_of_length (Path.getLast?_parts_join_plain dir hslash') ?_
  rw [String.toList_append, List.length_append]
  have hlen : ".tmp".toList.length = 4 := rfl
  omega

theorem StoreConfig.keyed_fileName (c : StoreConfig) (role : String) (h : ContentHash) :
    Keyed c.extension h (c.fileName role h) := by
  refine ⟨c.filePrefix ++ "_" ++ role, ?_⟩
  simp only [fileName, kernelEnd, String.append_assoc]

namespace FileTree

/-- The name of the temporary file of a number. -/
def tempName (n : Nat) : String := ".tmp" ++ toString n

theorem isTemp_tempName (n : Nat) : IsTemp (tempName n) := by
  have hdigits : (toString n).toList = Nat.toDigits 10 n := by simp [Nat.repr]
  refine ⟨toString n, rfl, ?_, ?_⟩ <;>
  · rw [hdigits]
    intro hmem
    exact absurd (Nat.isDigit_of_mem_toDigits (by decide) (by decide) hmem) (by decide)

/-- The temporary file that a tree gives has the name of one. -/
theorem isTemp_freshName (t : FileTree) (dir : Path) : IsTemp (t.freshName dir) := by
  have hplain : IsTemp ".tmp" := ⟨"", rfl, by decide, by decide⟩
  simp only [freshName]
  cases hfound : List.find? (fun name => !t.isPresent (dir.join name))
      ((List.range (t.nodes.size + 1)).map fun n => ".tmp" ++ toString n) with
  | none => exact hplain
  | some name =>
    obtain ⟨n, -, rfl⟩ := List.mem_map.mp (List.mem_of_find?_eq_some hfound)
    exact isTemp_tempName n

end FileTree

end KernelForge

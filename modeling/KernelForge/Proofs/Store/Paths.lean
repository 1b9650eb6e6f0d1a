import KernelForge.Store.FileTree
import Mathlib.Tactic.SplitIfs

/-!
# Paths into a directory

A path that leads to a directory, joined with a plain name, leads to what has that name in the
directory. This holds whatever the path looks like: it may be empty, end in a slash, or go up and
down.
-/
namespace KernelForge

/-- A name that is followed to a place of its own. -/
structure PlainName (name : String) : Prop where
  slash : '/' ∉ name.toList
  nul : '\x00' ∉ name.toList
  nonempty : name ≠ ""
  notHere : name ≠ "."
  notUp : name ≠ ".."
  short : name.utf8ByteSize ≤ FileTree.longestName

/-! ## The parts of a joined path -/

namespace Path

theorem join_of_empty {name : Path} (h : '/' ∉ name.toList) : join "" name = name := by
  have habs : isAbsolute name = false := by
    rw [isAbsolute, String.startsWith_char_eq_head?, beq_eq_false_iff_ne]
    exact fun hhead => h (List.mem_of_mem_head? hhead)
  simp [join, habs]

theorem join_of_slash {dir name : Path} (h : '/' ∉ name.toList)
    (hdir : dir.toList.getLast? = some '/') :
    join dir name = dir ++ name := by
  have habs : isAbsolute name = false := by
    rw [isAbsolute, String.startsWith_char_eq_head?, beq_eq_false_iff_ne]
    exact fun hhead => h (List.mem_of_mem_head? hhead)
  have hends : dir.endsWith '/' = true := by
    rw [String.endsWith_char_eq_getLast?, hdir]
    rfl
  simp [join, habs, hends]

theorem join_of_no_slash {dir name : Path} (h : '/' ∉ name.toList) (hne : dir ≠ "")
    (hdir : dir.toList.getLast? ≠ some '/') : join dir name = dir ++ "/" ++ name := by
  have habs : isAbsolute name = false := by
    rw [isAbsolute, String.startsWith_char_eq_head?, beq_eq_false_iff_ne]
    exact fun hhead => h (List.mem_of_mem_head? hhead)
  have hends : dir.endsWith '/' = false := by
    rw [String.endsWith_char_eq_getLast?, beq_eq_false_iff_ne]
    exact hdir
  simp [join, habs, hends, hne]

theorem parts_plain {name : Path} (h : '/' ∉ name.toList) : parts name = [name] := by
  simp [parts, List.splitOn_eq_singleton h]

theorem parts_slash {dir name : Path} (h : '/' ∉ name.toList) :
    parts (dir ++ "/" ++ name) = parts dir ++ [name] := by
  have htoList : (dir ++ "/" ++ name).toList = dir.toList ++ '/' :: name.toList := by simp
  rw [parts, htoList, List.splitOn_append_cons_self, List.splitOn_eq_singleton h]
  simp [parts]

end Path

namespace FileTree

/-! ## Following a path -/

theorem walk_append (t : FileTree) (place : List String) (names more : List String) :
    t.walk place (names ++ more) = (t.walk place names).bind fun p => t.walk p more := by
  induction names generalizing place with
  | nil => rfl
  | cons name rest ih =>
    rw [List.cons_append, walk, walk]
    cases t.step place name with
    | error e => rfl
    | ok p => exact ih p

theorem step_empty_eq_ok {t : FileTree} {place p : List String} (h : t.step place "" = .ok p) :
    p = place ∧ t.node? place = some .directory := by
  unfold step at h
  split at h
  · cases h
  · cases h
  · rename_i hnode
    rw [if_pos (Or.inl rfl)] at h
    exact ⟨(Except.ok.inj h).symm, hnode⟩

theorem step_empty {t : FileTree} {place : List String} (h : t.node? place = some .directory) :
    t.step place "" = .ok place := by
  simp [step, h]

theorem step_plain {t : FileTree} {place : List String} (h : t.node? place = some .directory)
    {name : String} (hname : PlainName name) : t.step place name = .ok (place ++ [name]) := by
  have hshort := hname.short
  simp [step, h, hname.nonempty, hname.notHere, hname.notUp, Nat.not_lt.mpr hshort]

theorem usableParts_eq_ok {path : Path} {names : List String} (h : usableParts path = .ok names) :
    '\x00' ∉ path.toList ∧ path ≠ "" ∧ path.utf8ByteSize ≤ longestPath ∧ names = path.parts := by
  unfold usableParts at h
  split_ifs at h with h1 h2 h3
  exact ⟨by simpa using h1, by simpa using h2, by omega, (Except.ok.inj h).symm⟩

theorem usableParts_of {path : Path} (hnul : '\x00' ∉ path.toList) (hne : path ≠ "")
    (hlen : path.utf8ByteSize ≤ longestPath) : usableParts path = .ok path.parts := by
  simp [usableParts, hnul, hne, Nat.not_lt.mpr hlen]

/-- A path leads to the directory of a place. The empty path leads to where paths start, although it
cannot be followed itself. -/
structure Opens (t : FileTree) (dir : Path) (place : List String) : Prop where
  leads : (dir = "" ∧ place = []) ∨ t.locate dir = .ok place
  directory : t.node? place = some .directory

theorem locate_eq_ok {t : FileTree} {path : Path} {place : List String}
    (h : t.locate path = .ok place) :
    usableParts path = .ok path.parts ∧ t.walk [] path.parts = .ok place := by
  unfold locate at h
  cases hu : usableParts path with
  | error e => simp [hu] at h
  | ok names =>
    obtain ⟨-, -, -, rfl⟩ := usableParts_eq_ok hu
    exact ⟨rfl, by simpa [hu] using h⟩

/-- The parts of a joined path: those that lead to the directory, and the name. -/
theorem Opens.usableParts_join {t : FileTree} {dir : Path} {place : List String}
    (h : t.Opens dir place) {name : String} (hname : PlainName name)
    (hlen : (dir.join name).utf8ByteSize ≤ longestPath) :
    ∃ above, usableParts (dir.join name) = .ok (above ++ [name]) ∧
      t.walk [] above = .ok place := by
  rcases h.leads with ⟨rfl, rfl⟩ | hlocate
  · rw [Path.join_of_empty hname.slash] at hlen ⊢
    refine ⟨[], ?_, rfl⟩
    rw [usableParts_of hname.nul hname.nonempty hlen, Path.parts_plain hname.slash]
    rfl
  · obtain ⟨husable, hwalk⟩ := locate_eq_ok hlocate
    obtain ⟨hnul, hne, -, -⟩ := usableParts_eq_ok husable
    by_cases hslash : dir.toList.getLast? = some '/'
    · -- the part behind the slash at the end gives way to the name
      obtain ⟨front, hfront⟩ := List.getLast?_eq_some_iff.mp hslash
      obtain rfl : dir = String.ofList front ++ "/" := by
        rw [← String.toList_inj]
        simpa using hfront
      have hparts : Path.parts (String.ofList front ++ "/") =
          Path.parts (String.ofList front) ++ [""] := by
        rw [← Path.parts_slash (by simp), String.append_empty]
      rw [Path.join_of_slash hname.slash hslash] at hlen ⊢
      refine ⟨Path.parts (String.ofList front), ?_, ?_⟩
      · have hnul' : '\x00' ∉ (String.ofList front ++ "/" ++ name).toList := by
          simp only [String.toList_append, List.mem_append, not_or] at hnul ⊢
          exact ⟨hnul, hname.nul⟩
        rw [usableParts_of hnul' (by simp) hlen, Path.parts_slash hname.slash]
      · rw [hparts, walk_append] at hwalk
        cases hw : t.walk [] (Path.parts (String.ofList front)) with
        | error e => simp [hw, Except.bind] at hwalk
        | ok p =>
          have hstep : t.walk p [""] = .ok place := by simpa [hw, Except.bind] using hwalk
          rw [walk] at hstep
          cases hs : t.step p "" with
          | error e => simp [hs] at hstep
          | ok q =>
            obtain ⟨rfl, -⟩ := step_empty_eq_ok hs
            simpa [hs, walk] using hstep
    · rw [Path.join_of_no_slash hname.slash hne hslash] at hlen ⊢
      have hnul' : '\x00' ∉ (dir ++ "/" ++ name).toList := by
        simp only [String.toList_append, List.mem_append, not_or]
        exact ⟨⟨hnul, by decide⟩, hname.nul⟩
      exact ⟨dir.parts, by
        rw [usableParts_of hnul' (by simp) hlen, Path.parts_slash hname.slash], hwalk⟩

theorem Opens.locate_join {t : FileTree} {dir : Path} {place : List String} (h : t.Opens dir place)
    {name : String} (hname : PlainName name)
    (hlen : (dir.join name).utf8ByteSize ≤ longestPath) :
    t.locate (dir.join name) = .ok (place ++ [name]) := by
  obtain ⟨above, hparts, hwalk⟩ := h.usableParts_join hname hlen
  simp only [locate, hparts, walk_append, hwalk, Except.bind, walk, step_plain h.directory hname]

theorem dropSlashes_append {names : List String} {name : String} (hne : name ≠ "") :
    dropSlashes (names ++ [name]) = names ++ [name] := by
  simp [dropSlashes, hne]

theorem Opens.landing_join {t : FileTree} {dir : Path} {place : List String} (h : t.Opens dir place)
    {name : String} (hname : PlainName name)
    (hlen : (dir.join name).utf8ByteSize ≤ longestPath) :
    t.landing (dir.join name) = .ok (place ++ [name]) := by
  obtain ⟨above, hparts, hwalk⟩ := h.usableParts_join hname hlen
  have hback : t.walk [] (above ++ [""]) = .ok place := by
    simp only [walk_append, hwalk, Except.bind, walk, step_empty h.directory]
  unfold landing
  simp only [hparts, dropSlashes_append hname.nonempty, List.dropLast_concat, hback,
    List.getLast?_concat]
  split
  · simp_all
  · simp_all
  · exact absurd (by simp_all) hname.notHere
  · exact absurd (by simp_all) hname.notUp
  · rename_i above' name' _ _ habove hlast
    obtain rfl := Except.ok.inj habove
    obtain rfl := Option.some.inj hlast
    simp [step_plain h.directory hname]

end FileTree

end KernelForge

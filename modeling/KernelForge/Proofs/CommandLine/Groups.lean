import KernelForge.CommandLine.Options
import Mathlib.Data.List.Induction
import Mathlib.Data.List.Perm.Basic

/-!
# The groups of a command line

A command line is read as groups from left to right, in one way, and the groups spell it again. Of
the groups only the last may lack its directory. There is a fault in a group that cannot be taken
behind the groups before it; a line without faults that asks for something is accepted.
-/
namespace KernelForge.CommandLine

/-- A word that is taken for an option. -/
def IsOption (word : String) : Prop := word.toList.head? = some '-'

theorem startsWith_iff {word : String} : word.startsWith '-' = true ↔ IsOption word := by
  rw [String.startsWith_char_eq_head?, beq_iff_eq, IsOption]

namespace Group

/-- A command line is read from left to right. -/
inductive Reads : List String → List Group → Prop
  | nil : Reads [] []
  | list {words : List String} {groups : List Group} (rest : Reads words groups) :
      Reads ("--list" :: words) (list :: groups)
  | purge {words : List String} {groups : List Group} (rest : Reads words groups) :
      Reads ("--purge" :: words) (purge :: groups)
  /-- The directory may be any word. -/
  | cache {dir : Path} {words : List String} {groups : List Group} (rest : Reads words groups) :
      Reads ("--cache" :: dir :: words) (cache dir :: groups)
  | cacheWithoutDir : Reads ["--cache"] [cacheWithoutDir]
  | unknown {flag : String} {words : List String} {groups : List Group} (option : IsOption flag)
      (other : flag ∉ ["--list", "--purge", "--cache"]) (rest : Reads words groups) :
      Reads (flag :: words) (unknown flag :: groups)
  | kernel {name : String} {words : List String} {groups : List Group} (plain : ¬ IsOption name)
      (rest : Reads words groups) : Reads (name :: words) (kernel name :: groups)

/-! ## One reading -/

theorem ofWords_cons {word : String} (h : word ≠ "--cache") (words : List String) :
    ofWords (word :: words) = ofWord word :: ofWords words := by
  cases words with
  | nil => rw [ofWords, ofWords, if_neg h]
  | cons next rest => rw [ofWords, if_neg h]

theorem Reads.word {word : String} {words : List String} {groups : List Group}
    (h : word ≠ "--cache") (rest : Reads words groups) :
    Reads (word :: words) (ofWord word :: groups) := by
  unfold ofWord
  split_ifs with hlist hpurge hoption
  · exact hlist ▸ rest.list
  · exact hpurge ▸ rest.purge
  · exact rest.unknown (startsWith_iff.mp hoption) (by simp [h, hlist, hpurge])
  · exact rest.kernel (hoption ∘ startsWith_iff.mpr)

theorem reads_ofWords (words : List String) : Reads words (ofWords words) := by
  induction words using ofWords.induct with
  | case1 => exact .nil
  | case2 => exact .cacheWithoutDir
  | case3 word h => exact ofWords_cons h [] ▸ Reads.nil.word h
  | case4 next rest ih => exact ih.cache
  | case5 word next rest h ih => exact ofWords_cons h _ ▸ ih.word h

theorem Reads.ofWords_eq {words : List String} {groups : List Group} (h : Reads words groups) :
    ofWords words = groups := by
  induction h with
  | nil => rfl
  | list _ ih => rw [ofWords_cons (by decide), ih, ofWord, if_pos rfl]
  | purge _ ih => rw [ofWords_cons (by decide), ih, ofWord, if_neg (by decide), if_pos rfl]
  | cache _ ih => rw [ofWords, if_pos rfl, ih]
  | cacheWithoutDir => rfl
  | @unknown flag _ _ hoption hother _ ih =>
    obtain ⟨hlist, hpurge, hcache⟩ : flag ≠ "--list" ∧ flag ≠ "--purge" ∧ flag ≠ "--cache" := by
      simpa using hother
    rw [ofWords_cons hcache, ih, ofWord, if_neg hlist, if_neg hpurge,
      if_pos (startsWith_iff.mpr hoption)]
  | @kernel name _ _ hplain _ ih =>
    have hne : ∀ flag, IsOption flag → name ≠ flag := fun flag hflag heq => hplain (heq ▸ hflag)
    rw [ofWords_cons (hne "--cache" rfl), ih, ofWord, if_neg (hne "--list" rfl),
      if_neg (hne "--purge" rfl), if_neg (hplain ∘ startsWith_iff.mp)]

theorem reads_iff {words : List String} {groups : List Group} :
    Reads words groups ↔ groups = ofWords words :=
  ⟨fun h => h.ofWords_eq.symm, fun h => h ▸ reads_ofWords words⟩

/-! ## Spelling -/

def words : Group → List String
  | list => ["--list"]
  | purge => ["--purge"]
  | cache dir => ["--cache", dir]
  | cacheWithoutDir => ["--cache"]
  | unknown flag => [flag]
  | kernel name => [name]

/-- What a group consists of is read as that group. -/
def Proper : Group → Prop
  | unknown flag => IsOption flag ∧ flag ∉ ["--list", "--purge", "--cache"]
  | kernel name => ¬ IsOption name
  | list | purge | cache _ | cacheWithoutDir => True

theorem not_mem_dropLast_cons {g first : Group} {groups : List Group} (hne : g ≠ first)
    (h : g ∉ groups.dropLast) : g ∉ (first :: groups).dropLast := by
  cases groups with
  | nil => simp
  | cons next rest =>
    rw [List.dropLast_cons_cons, List.mem_cons, not_or]
    exact ⟨hne, h⟩

/-- Of the groups that a command line is read as only the last may lack its directory. -/
structure Spells (groups : List Group) (line : List String) : Prop where
  spelled : groups.flatMap words = line
  proper : ∀ g ∈ groups, g.Proper
  complete : cacheWithoutDir ∉ groups.dropLast

theorem Spells.cons {g : Group} {groups : List Group} {line : List String}
    (h : Spells groups line) (hne : cacheWithoutDir ≠ g) (hproper : g.Proper) :
    Spells (g :: groups) (g.words ++ line) :=
  ⟨by rw [List.flatMap_cons, h.spelled], List.forall_mem_cons.mpr ⟨hproper, h.proper⟩,
    not_mem_dropLast_cons hne h.complete⟩

theorem Reads.spells {line : List String} {groups : List Group} (h : Reads line groups) :
    Spells groups line := by
  induction h with
  | nil => exact ⟨rfl, by simp, by simp⟩
  | list _ ih | purge _ ih | cache _ ih => exact ih.cons (by simp) trivial
  | cacheWithoutDir => exact ⟨rfl, by simp [Proper], by simp⟩
  | unknown hoption hother _ ih => exact ih.cons (by simp) ⟨hoption, hother⟩
  | kernel hplain _ ih => exact ih.cons (by simp) hplain

theorem reads_flatMap {groups : List Group} (hproper : ∀ g ∈ groups, g.Proper)
    (hlast : cacheWithoutDir ∉ groups.dropLast) : Reads (groups.flatMap words) groups := by
  induction groups with
  | nil => exact .nil
  | cons g rest ih =>
    obtain ⟨hg, hrest⟩ := List.forall_mem_cons.mp hproper
    have hreads : Reads (rest.flatMap words) rest := by
      refine ih hrest fun hmem => hlast ?_
      cases rest with
      | nil => simp at hmem
      | cons g' rest => exact List.mem_cons_of_mem _ hmem
    cases g with
    | list => exact hreads.list
    | purge => exact hreads.purge
    | cache dir => exact hreads.cache
    | cacheWithoutDir =>
      cases rest with
      | nil => exact .cacheWithoutDir
      | cons g' rest => simp at hlast
    | unknown flag => exact hreads.unknown hg.1 hg.2
    | kernel name => exact hreads.kernel hg

/-! ## What groups tell -/

def kernel? : Group → Option String
  | kernel name => some name
  | _ => none

def dir? : Group → Option Path
  | cache dir => some dir
  | _ => none

/-- What is wrong with a group that stands behind others. -/
inductive Fault (before : List Group) : Group → UsageError → Prop
  | missingDirectory : Fault before cacheWithoutDir .missingDirectory
  | unknownOption (flag : String) : Fault before (unknown flag) (.unknownOption flag)
  | secondKernel {first : String} (name : String)
      (given : (before.filterMap kernel?).head? = some first) :
      Fault before (kernel name) (.secondKernel first name)

/-- A fault in the group of a place. -/
def FaultAt (groups : List Group) (n : ℕ) (e : UsageError) : Prop :=
  ∃ g, groups[n]? = some g ∧ Fault (groups.take n) g e

def Leftmost (groups : List Group) (n : ℕ) (e : UsageError) : Prop :=
  FaultAt groups n e ∧ ∀ m e', FaultAt groups m e' → n ≤ m

def Faultless (groups : List Group) : Prop := ∀ n e, ¬ FaultAt groups n e

theorem faultAt_concat_iff {groups : List Group} {g : Group} {n : ℕ} {e : UsageError} :
    FaultAt (groups ++ [g]) n e ↔ FaultAt groups n e ∨ (n = groups.length ∧ Fault groups g e) := by
  unfold FaultAt
  rcases Nat.lt_trichotomy n groups.length with hlt | rfl | hgt
  · rw [List.getElem?_append_left hlt, List.take_append_of_le_length (Nat.le_of_lt hlt)]
    simp [Nat.ne_of_lt hlt]
  · simp
  · have hnone : groups[n]? = none := List.getElem?_eq_none (Nat.le_of_lt hgt)
    have hnone' : (groups ++ [g])[n]? = none :=
      List.getElem?_eq_none (by simpa using Nat.succ_le_of_lt hgt)
    simp [hnone, hnone', Nat.ne_of_gt hgt]

theorem faultless_concat_iff {groups : List Group} {g : Group} :
    Faultless (groups ++ [g]) ↔ Faultless groups ∧ ∀ e, ¬ Fault groups g e := by
  simp only [Faultless, faultAt_concat_iff, not_or]
  constructor
  · exact fun h => ⟨fun n e => (h n e).1, fun e he => (h groups.length e).2 ⟨rfl, he⟩⟩
  · exact fun h n e => ⟨h.1 n e, fun he => h.2 e he.2⟩

theorem FaultAt.lt {groups : List Group} {n : ℕ} {e : UsageError} (h : FaultAt groups n e) :
    n < groups.length := by
  obtain ⟨g, hg, -⟩ := h
  exact (List.getElem?_eq_some_iff.mp hg).1

theorem Leftmost.concat {groups : List Group} {n : ℕ} {e : UsageError} (h : Leftmost groups n e)
    (g : Group) : Leftmost (groups ++ [g]) n e := by
  refine ⟨faultAt_concat_iff.mpr (Or.inl h.1), fun m e' hm => ?_⟩
  rcases faultAt_concat_iff.mp hm with hm | ⟨rfl, -⟩
  · exact h.2 m e' hm
  · exact Nat.le_of_lt h.1.lt

theorem Faultless.leftmost_concat {groups : List Group} {g : Group} {e : UsageError}
    (h : Faultless groups) (hg : Fault groups g e) : Leftmost (groups ++ [g]) groups.length e := by
  refine ⟨faultAt_concat_iff.mpr (Or.inr ⟨rfl, hg⟩), fun m e' hm => ?_⟩
  rcases faultAt_concat_iff.mp hm with hm | ⟨rfl, -⟩
  · exact absurd hm (h m e')
  · exact Nat.le_refl _

theorem Fault.unique {before : List Group} {g : Group} {e e' : UsageError} (h : Fault before g e)
    (h' : Fault before g e') : e = e' := by
  cases h with
  | missingDirectory | unknownOption =>
    cases h'
    rfl
  | secondKernel name given =>
    cases h' with
    | secondKernel _ given' => rw [Option.some.inj (given.symm.trans given')]

theorem Leftmost.unique {groups : List Group} {n n' : ℕ} {e e' : UsageError}
    (h : Leftmost groups n e) (h' : Leftmost groups n' e') : e = e' := by
  obtain rfl := Nat.le_antisymm (h.2 n' e' h'.1) (h'.2 n e h.1)
  obtain ⟨⟨g, hg, hfault⟩, -⟩ := h
  obtain ⟨⟨g', hg', hfault'⟩, -⟩ := h'
  obtain rfl := Option.some.inj (hg.symm.trans hg')
  exact hfault.unique hfault'

theorem forall_not_fault_iff {before : List Group} {g : Group} : (∀ e, ¬ Fault before g e) ↔
    cacheWithoutDir ≠ g ∧ (∀ flag, unknown flag ≠ g) ∧
      (before.filterMap kernel? = [] ∨ g.kernel? = none) := by
  constructor
  · intro h
    refine ⟨?_, ?_, ?_⟩
    · rintro rfl
      exact h _ .missingDirectory
    · rintro flag rfl
      exact h _ (.unknownOption flag)
    · cases g with
      | kernel name =>
        cases hkernels : before.filterMap kernel? with
        | nil => exact Or.inl rfl
        | cons first rest => exact absurd (.secondKernel name (by rw [hkernels]; rfl)) (h _)
      | _ => exact Or.inr rfl
  · rintro ⟨hcache, hunknown, hkernel⟩ e he
    cases he with
    | missingDirectory => exact hcache rfl
    | unknownOption flag => exact hunknown flag rfl
    | secondKernel name given =>
      rcases hkernel with hnone | hnone
      · rw [hnone] at given
        cases given
      · cases hnone

/-- What a command line without faults is made of. -/
theorem faultless_iff {groups : List Group} : Faultless groups ↔
    cacheWithoutDir ∉ groups ∧ (∀ flag, unknown flag ∉ groups) ∧
      (groups.filterMap kernel?).length ≤ 1 := by
  induction groups using List.reverseRecOn with
  | nil => simp [Faultless, FaultAt]
  | append_singleton groups g ih =>
    have hkernels : ((groups ++ [g]).filterMap kernel?).length ≤ 1 ↔
        (groups.filterMap kernel?).length ≤ 1 ∧
          (groups.filterMap kernel? = [] ∨ g.kernel? = none) := by
      rw [List.filterMap_append, List.length_append]
      cases hg : g.kernel? with
      | none => simp [hg]
      | some name =>
        simp only [List.filterMap_cons, hg, List.filterMap_nil, List.length_singleton,
          reduceCtorEq, or_false, ← List.length_eq_zero_iff]
        omega
    rw [faultless_concat_iff, ih, forall_not_fault_iff, hkernels]
    simp only [List.mem_append, List.mem_singleton, not_or, forall_and]
    tauto

/-! ## Accepted groups -/

/-- There is something to do. A directory alone asks for nothing. -/
def Asks (groups : List Group) : Prop :=
  groups.filterMap kernel? ≠ [] ∨ list ∈ groups ∨ purge ∈ groups

/-- The groups of a command line that is not refused. -/
structure Accepted (groups : List Group) : Prop where
  complete : cacheWithoutDir ∉ groups
  known : ∀ flag, unknown flag ∉ groups
  single : (groups.filterMap kernel?).length ≤ 1
  asks : Asks groups

theorem accepted_iff {groups : List Group} : Accepted groups ↔ Faultless groups ∧ Asks groups := by
  rw [faultless_iff]
  constructor
  · exact fun h => ⟨⟨h.complete, h.known, h.single⟩, h.asks⟩
  · exact fun ⟨⟨hcomplete, hknown, hsingle⟩, hasks⟩ => ⟨hcomplete, hknown, hsingle, hasks⟩

theorem Accepted.perm {groups groups' : List Group} (h : Accepted groups)
    (hperm : groups'.Perm groups) : Accepted groups' where
  complete := hperm.mem_iff.not.mpr h.complete
  known flag := hperm.mem_iff.not.mpr (h.known flag)
  single := (hperm.filterMap kernel?).length_eq ▸ h.single
  asks := by
    have hkernels := (hperm.filterMap kernel?).length_eq
    rw [Asks, hperm.mem_iff, hperm.mem_iff, ← List.length_pos_iff, hkernels, List.length_pos_iff]
    exact h.asks

theorem Accepted.reads {groups : List Group} (h : Accepted groups)
    (hproper : ∀ g ∈ groups, g.Proper) : Reads (groups.flatMap words) groups :=
  reads_flatMap hproper fun hmem => h.complete (List.dropLast_subset groups hmem)

/-- A flag may be put between the groups of a command line. -/
theorem Spells.reads_insert {before after : List Group} {flag : Group} {line : List String}
    (h : Spells (before ++ after) line) (hflag : flag = list ∨ flag = purge)
    (hcomplete : cacheWithoutDir ∉ before) :
    Reads ((before ++ flag :: after).flatMap words) (before ++ flag :: after) := by
  have hne : cacheWithoutDir ≠ flag := by rcases hflag with rfl | rfl <;> simp
  have hproper : flag.Proper := by rcases hflag with rfl | rfl <;> exact trivial
  refine reads_flatMap (fun g hg => ?_) ?_
  · rcases List.mem_append.mp hg with hg | hg
    · exact h.proper g (List.mem_append_left _ hg)
    · rcases List.mem_cons.mp hg with rfl | hg
      · exact hproper
      · exact h.proper g (List.mem_append_right _ hg)
  · have hafter : cacheWithoutDir ∉ after.dropLast := by
      have hlast := h.complete
      cases after with
      | nil => simp
      | cons g rest =>
        rw [List.dropLast_append_cons] at hlast
        exact fun hmem => hlast (List.mem_append_right _ hmem)
    rw [List.dropLast_append_cons, List.mem_append, not_or]
    exact ⟨hcomplete, not_mem_dropLast_cons hne hafter⟩

end Group

end KernelForge.CommandLine

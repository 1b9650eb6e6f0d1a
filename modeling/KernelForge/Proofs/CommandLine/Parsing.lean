import KernelForge.Proofs.CommandLine.Groups

/-!
# Parsing command lines

The options of a command line are told by its groups: by the kernel that they name, the last
directory and the flags. A line is refused for its leftmost fault, or if it has none and asks for
nothing. Otherwise the order of its groups does not matter, nor how often a flag is given.
-/
namespace KernelForge.CommandLine

namespace Options

open CommandLine.Group (Reads Fault Faultless Leftmost Asks Accepted kernel? dir?)

/-! ## Options of groups -/

/-- The options that groups ask for. -/
def ofGroups (groups : List Group) : Options where
  kernel := (groups.filterMap kernel?).head?
  cacheDir := (groups.filterMap dir?).getLast?
  purge := decide (Group.purge ∈ groups)
  list := decide (Group.list ∈ groups)

/-- One more group gives the options for all, if there is no fault in it. -/
theorem add_ofGroups (groups : List Group) (g : Group) :
    (∃ e, Fault groups g e ∧ (ofGroups groups).add g = .error e) ∨
      ((∀ e, ¬ Fault groups g e) ∧ (ofGroups groups).add g = .ok (ofGroups (groups ++ [g]))) := by
  cases g with
  | cacheWithoutDir => exact Or.inl ⟨_, .missingDirectory, rfl⟩
  | unknown flag => exact Or.inl ⟨_, .unknownOption flag, rfl⟩
  | kernel name =>
    cases hkernels : groups.filterMap kernel? with
    | nil =>
      refine Or.inr ⟨Group.forall_not_fault_iff.mpr ⟨by simp, by simp, Or.inl hkernels⟩, ?_⟩
      simp [add, ofGroups, hkernels, kernel?, dir?]
    | cons first rest =>
      refine Or.inl ⟨_, .secondKernel name (by rw [hkernels]; rfl), ?_⟩
      simp [add, ofGroups, hkernels]
  | list | purge | cache dir =>
    refine Or.inr ⟨Group.forall_not_fault_iff.mpr ⟨by simp, by simp, Or.inr rfl⟩, ?_⟩
    simp [add, ofGroups, kernel?, dir?]

/-- The groups are taken in up to the leftmost fault. -/
theorem addAll_cases (groups : List Group) :
    (∃ n e, Leftmost groups n e ∧ addAll {} groups = .error e) ∨
      (Faultless groups ∧ addAll {} groups = .ok (ofGroups groups)) := by
  induction groups using List.reverseRecOn with
  | nil => exact Or.inr ⟨by simp [Faultless, Group.FaultAt], rfl⟩
  | append_singleton groups g ih =>
    rw [addAll_append]
    rcases ih with ⟨n, e, hleft, hadd⟩ | ⟨hnone, hadd⟩
    · exact Or.inl ⟨n, e, hleft.concat g, by rw [hadd]; rfl⟩
    · rw [hadd, Except.bind, addAll]
      rcases add_ofGroups groups g with ⟨e, hfault, hg⟩ | ⟨hfault, hg⟩
      · exact Or.inl ⟨_, e, hnone.leftmost_concat hfault, by rw [hg]⟩
      · exact Or.inr ⟨Group.faultless_concat_iff.mpr ⟨hnone, hfault⟩, by rw [hg]; rfl⟩

/-! ## What is made of a reading -/

theorem asksForNothing_ofGroups {groups : List Group} :
    (ofGroups groups).asksForNothing = true ↔ ¬ Asks groups := by
  simp only [asksForNothing, ofGroups, Asks, not_or, Bool.and_eq_true, Bool.not_eq_true',
    decide_eq_false_iff_not, Option.isNone_iff_eq_none, List.head?_eq_none_iff, ne_eq, not_not,
    and_assoc]

theorem parse_cases {line : List String} {groups : List Group} (h : Reads line groups) :
    (∃ n e, Leftmost groups n e ∧ parse line = .error e) ∨
      (Faultless groups ∧ ¬ Asks groups ∧ parse line = .error .nothingToDo) ∨
      (Accepted groups ∧ parse line = .ok (ofGroups groups)) := by
  rw [parse, h.ofWords_eq]
  rcases addAll_cases groups with ⟨n, e, hleft, hadd⟩ | ⟨hnone, hadd⟩
  · exact Or.inl ⟨n, e, hleft, by rw [hadd]⟩
  · rw [hadd]
    by_cases hasks : Asks groups
    · have hsome := asksForNothing_ofGroups.not.mpr (not_not.mpr hasks)
      exact Or.inr (Or.inr ⟨Group.accepted_iff.mpr ⟨hnone, hasks⟩, if_neg hsome⟩)
    · exact Or.inr (Or.inl ⟨hnone, hasks, if_pos (asksForNothing_ofGroups.mpr hasks)⟩)

theorem parse_eq_ok_iff {line : List String} {groups : List Group} (h : Reads line groups)
    {o : Options} : parse line = .ok o ↔ Accepted groups ∧ o = ofGroups groups := by
  rcases parse_cases h with ⟨n, e, hleft, hparse⟩ | ⟨-, hasks, hparse⟩ | ⟨haccepted, hparse⟩
  · have hnot : ¬ Accepted groups := fun ha => (Group.accepted_iff.mp ha).1 n e hleft.1
    simp [hparse, hnot]
  · have hnot : ¬ Accepted groups := fun ha => hasks ha.asks
    simp [hparse, hnot]
  · simp [hparse, haccepted, eq_comm]

theorem parse_eq_error_iff {line : List String} {groups : List Group} (h : Reads line groups)
    {e : UsageError} : parse line = .error e ↔
      (∃ n, Leftmost groups n e) ∨ (Faultless groups ∧ ¬ Asks groups ∧ e = .nothingToDo) := by
  rcases parse_cases h with ⟨n, e', hleft, hparse⟩ | ⟨hnone, hasks, hparse⟩ | ⟨haccepted, hparse⟩
  · have hfault : ¬ Faultless groups := fun hnone => hnone n e' hleft.1
    rw [hparse, Except.error.injEq]
    constructor
    · rintro rfl
      exact Or.inl ⟨n, hleft⟩
    · rintro (⟨n', hleft'⟩ | ⟨hnone, -⟩)
      · exact hleft.unique hleft'
      · exact absurd hnone hfault
  · rw [hparse, Except.error.injEq]
    constructor
    · rintro rfl
      exact Or.inr ⟨hnone, hasks, rfl⟩
    · rintro (⟨n, hleft⟩ | ⟨-, -, rfl⟩)
      · exact absurd hleft.1 (hnone n e)
      · rfl
  · obtain ⟨hnone, hasks⟩ := Group.accepted_iff.mp haccepted
    rw [hparse]
    constructor
    · rintro ⟨⟩
    · rintro (⟨n, hleft⟩ | ⟨-, hnot, -⟩)
      · exact absurd hleft.1 (hnone n e)
      · exact absurd hasks hnot

/-! ## The order of the groups -/

theorem ofGroups_perm {groups groups' : List Group} (h : Accepted groups)
    (hperm : groups'.Perm groups) (hdirs : groups'.filterMap dir? = groups.filterMap dir?) :
    ofGroups groups' = ofGroups groups := by
  have hkernels : groups'.filterMap kernel? = groups.filterMap kernel? := by
    have hsame := hperm.filterMap kernel?
    rcases Nat.le_one_iff_eq_zero_or_eq_one.mp h.single with hzero | hone
    · rw [List.length_eq_zero_iff] at hzero
      rw [hzero] at hsame ⊢
      exact hsame.eq_nil
    · obtain ⟨name, hname⟩ := List.length_eq_one_iff.mp hone
      rw [hname] at hsame ⊢
      exact hsame.eq_singleton
  simp only [ofGroups, hkernels, hdirs, hperm.mem_iff]

/-! ## Flags -/

/-- The options with a flag. -/
def raise (o : Options) : Group → Options
  | .list => { o with list := true }
  | .purge => { o with purge := true }
  | _ => o

theorem add_flag (o : Options) {flag : Group} (h : flag = .list ∨ flag = .purge) :
    o.add flag = .ok (o.raise flag) := by
  rcases h with rfl | rfl <;> rfl

theorem raise_ofGroups {groups : List Group} {flag : Group} (h : flag ∈ groups) :
    (ofGroups groups).raise flag = ofGroups groups := by
  cases flag with
  | list | purge => simp [raise, ofGroups, h]
  | _ => rfl

theorem add_raise (o : Options) (flag g : Group) :
    (o.raise flag).add g = (o.add g).map (raise · flag) := by
  cases g with
  | kernel name =>
    have hkernel : (o.raise flag).kernel = o.kernel := by cases flag <;> rfl
    simp only [add, hkernel]
    cases o.kernel <;> cases flag <;> rfl
  | _ => cases flag <;> rfl

theorem addAll_raise (o : Options) (flag : Group) (groups : List Group) :
    (o.raise flag).addAll groups = (o.addAll groups).map (raise · flag) := by
  induction groups generalizing o with
  | nil => rfl
  | cons g rest ih =>
    rw [addAll, addAll, add_raise]
    cases o.add g with
    | error e => rfl
    | ok o => exact ih o

/-- A flag that is given again makes no difference. -/
theorem addAll_insert {before after : List Group} {flag : Group}
    (hflag : flag = .list ∨ flag = .purge) (hmem : flag ∈ before ++ after) :
    addAll {} (before ++ flag :: after) = addAll {} (before ++ after) := by
  have hraised : addAll {} (before ++ flag :: after) =
      (addAll {} (before ++ after)).map (raise · flag) := by
    rw [addAll_append, addAll_append]
    cases addAll {} before with
    | error e => rfl
    | ok o =>
      change o.addAll (flag :: after) = (o.addAll after).map (raise · flag)
      rw [addAll, add_flag o hflag]
      exact addAll_raise o flag after
  rw [hraised]
  rcases addAll_cases (before ++ after) with ⟨n, e, -, hadd⟩ | ⟨-, hadd⟩
  · rw [hadd, Except.map]
  · rw [hadd, Except.map, raise_ofGroups hmem]

end Options

/-! ## Command lines -/

theorem head?_toList_append {s : String} {c : Char} (h : s.toList.head? = some c) (t : String) :
    (s ++ t).toList.head? = some c := by
  rw [String.toList_append, List.head?_append, h]
  rfl

theorem UsageError.message_eq_iff {e : UsageError} :
    e.message = "no kernel given" ↔ e = .nothingToDo := by
  refine ⟨fun h => ?_, fun h => h ▸ rfl⟩
  -- the messages differ in their first characters
  cases e with
  | nothingToDo => rfl
  | missingDirectory => exact absurd h (by decide)
  | unknownOption flag =>
    have hhead : (unknownOption flag).message.toList.head? = some 'u' :=
      head?_toList_append (head?_toList_append (by decide) flag) "'"
    rw [h] at hhead
    exact absurd hhead (by decide)
  | secondKernel first second =>
    have hhead : (secondKernel first second).message.toList.head? = some 'm' :=
      head?_toList_append (head?_toList_append (head?_toList_append
        (head?_toList_append (by decide) first) "' and '") second) "')"
    rw [h] at hhead
    exact absurd hhead (by decide)

/-- What is made of a command line that is read as some groups. -/
structure Understood (line : List String) (groups : List Group) : Prop where
  spelled : groups.flatMap Group.words = line
  ok : ∀ o, Options.parse line = .ok o ↔ Group.Accepted groups ∧ o = .ofGroups groups
  /-- The leftmost fault is reported, and that there is nothing to do only if there is none. -/
  error : ∀ e, Options.parse line = .error e ↔ (∃ n, Group.Leftmost groups n e) ∨
    (Group.Faultless groups ∧ ¬ Group.Asks groups ∧ e = .nothingToDo)
  message : ∀ e, Options.parse line = .error e → e.message = "no kernel given" →
    Group.Faultless groups
  /-- The groups of an accepted line may change their places, if the directories keep theirs. -/
  reordered : ∀ (o : Options) (groups' : List Group), Options.parse line = .ok o →
    groups'.Perm groups → groups'.filterMap Group.dir? = groups.filterMap Group.dir? →
    Options.parse (groups'.flatMap Group.words) = .ok o
  /-- A flag may be given again, but not where a directory is missing. -/
  repeated : ∀ before after flag, groups = before ++ after → flag = .list ∨ flag = .purge →
    flag ∈ groups → .cacheWithoutDir ∉ before →
    Options.parse ((before ++ flag :: after).flatMap Group.words) = Options.parse line

theorem exists_understood (line : List String) :
    ∃ groups, (∀ other, Group.Reads line other ↔ other = groups) ∧ Understood line groups := by
  have hreads := Group.reads_ofWords line
  refine ⟨Group.ofWords line, fun other => Group.reads_iff, hreads.spells.spelled,
    fun o => Options.parse_eq_ok_iff hreads, fun e => Options.parse_eq_error_iff hreads, ?_, ?_, ?_⟩
  · intro e hparse hmessage
    obtain rfl := UsageError.message_eq_iff.mp hmessage
    rcases (Options.parse_eq_error_iff hreads).mp hparse with ⟨n, ⟨g, -, hfault⟩, -⟩ | ⟨hnone, -⟩
    · cases hfault
    · exact hnone
  · intro o groups' hparse hperm hdirs
    obtain ⟨haccepted, rfl⟩ := (Options.parse_eq_ok_iff hreads).mp hparse
    have hmoved := haccepted.perm hperm
    have hproper : ∀ g ∈ groups', g.Proper := fun g hg =>
      hreads.spells.proper g (hperm.mem_iff.mp hg)
    rw [Options.parse_eq_ok_iff (hmoved.reads hproper)]
    exact ⟨hmoved, (Options.ofGroups_perm haccepted hperm hdirs).symm⟩
  · intro before after flag hgroups hflag hmem hcomplete
    have hinserted := Group.Spells.reads_insert (hgroups ▸ hreads.spells) hflag hcomplete
    rw [Options.parse, Options.parse, hinserted.ofWords_eq,
      Options.addAll_insert hflag (hgroups ▸ hmem), hgroups]

/-- A directory may look like an option, and a kernel may have no name. -/
example : Options.parse ["", "--cache", "--list", "--purge", "--cache", "d"] =
    .ok { kernel := some "", cacheDir := some "d", purge := true } := by decide

end KernelForge.CommandLine

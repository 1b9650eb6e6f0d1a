import KernelForge.Proofs.Store.Changes

/-!
# Changes place by place

What a step of a store does to a tree, told by places. A temporary file stands where nothing stood,
so that a file that is replaced is the only one that differs afterwards, and none differs if it
could not be replaced.
-/
namespace KernelForge

namespace FileTree

/-! ## Paths to files -/

/-- The path leads to a place where a file is or may be put. -/
structure LeadsTo (t : FileTree) (p : Path) (place : List String) : Prop where
  locate : t.locate p = .ok place
  file : t.node? place ≠ some .directory

/-- The directories are the same. Elsewhere there is what was there, or what may be at the place. -/
structure Changes (may : List String → Option FileNode → Prop) (t t' : FileTree) : Prop where
  directory_iff : ∀ p, t'.node? p = some .directory ↔ t.node? p = some .directory
  node : ∀ p, t'.node? p = t.node? p ∨ may p (t'.node? p)

section

variable {may may' : List String → Option FileNode → Prop} {t t' t'' : FileTree} {p dest : Path}
  {place above : List String} {bytes : List UInt8}

theorem LeadsTo.unique {place' : List String} (h : t.LeadsTo p place) (h' : t.LeadsTo p place') :
    place = place' :=
  Except.ok.inj (h.locate.symm.trans h'.locate)

theorem LeadsTo.find (h : t.LeadsTo p place) :
    t.find p = (t.node? place).elim (.error .notFound) .ok :=
  find_of_locate h.locate

theorem LeadsTo.read_eq_ok_iff (h : t.LeadsTo p place) :
    t.read p = .ok bytes ↔ t.node? place = some (.file bytes) := by
  constructor
  · intro hread
    obtain ⟨place', hl, hnode⟩ := read_eq_ok hread
    obtain rfl := Except.ok.inj (h.locate.symm.trans hl)
    exact hnode
  · exact read_of_node h.locate

theorem leadsTo_of_read (h : t.read p = .ok bytes) :
    ∃ place, t.LeadsTo p place ∧ t.node? place = some (.file bytes) := by
  obtain ⟨place, hl, hnode⟩ := read_eq_ok h
  exact ⟨place, ⟨hl, by rw [hnode]; simp⟩, hnode⟩

theorem Changes.refl : Changes may t t := ⟨fun _ => Iff.rfl, fun _ => Or.inl rfl⟩

theorem Changes.trans (h : Changes may t t') (h' : Changes may t' t'') : Changes may t t'' := by
  refine ⟨fun p => (h'.directory_iff p).trans (h.directory_iff p), fun p => ?_⟩
  rcases h'.node p with heq | hmay
  · rw [heq]
    exact h.node p
  · exact Or.inr hmay

theorem Changes.mono (h : Changes may t t') (hmay : ∀ p node, may p node → may' p node) :
    Changes may' t t' :=
  ⟨h.directory_iff, fun p => (h.node p).imp_right (hmay p _)⟩

theorem Changes.locate_eq_ok_iff (h : Changes may t t') :
    t'.locate p = .ok place ↔ t.locate p = .ok place := by
  constructor
  · intro hl
    obtain ⟨husable, hwalk⟩ := locate_eq_ok hl
    simp only [locate, husable, walk_of_directories (fun q => (h.directory_iff q).mp) hwalk]
  · intro hl
    obtain ⟨husable, hwalk⟩ := locate_eq_ok hl
    simp only [locate, husable, walk_of_directories (fun q => (h.directory_iff q).mpr) hwalk]

theorem Changes.leadsTo_iff (h : Changes may t t') : t'.LeadsTo p place ↔ t.LeadsTo p place :=
  ⟨fun hp => ⟨h.locate_eq_ok_iff.mp hp.locate, fun hd => hp.file ((h.directory_iff _).mpr hd)⟩,
    fun hp => ⟨h.locate_eq_ok_iff.mpr hp.locate, fun hd => hp.file ((h.directory_iff _).mp hd)⟩⟩

/-- At the end of a path there is what was there, or what may be at its place. -/
theorem Changes.find_eq (h : Changes may t t') (hp : t.LeadsTo p place)
    (hmay : ¬ may place (t'.node? place)) : t'.find p = t.find p := by
  rw [hp.find, (h.leadsTo_iff.mpr hp).find, (h.node place).resolve_right hmay]

/-- What can be read in one of two trees can be read in the other if it was not changed. -/
theorem Changes.read_eq_ok_iff (h : Changes may t t')
    (hmay : ∀ place, t.LeadsTo p place → ¬ may place (t'.node? place)) :
    t'.read p = .ok bytes ↔ t.read p = .ok bytes := by
  constructor
  · intro hread
    obtain ⟨place, hp, hnode⟩ := leadsTo_of_read hread
    have hp' := h.leadsTo_iff.mp hp
    rw [(h.node place).resolve_right (hmay place hp')] at hnode
    exact read_of_node hp'.locate hnode
  · intro hread
    obtain ⟨place, hp, hnode⟩ := leadsTo_of_read hread
    rw [← (h.node place).resolve_right (hmay place hp)] at hnode
    exact read_of_node (h.leadsTo_iff.mpr hp).locate hnode

theorem isPresent_iff :
    t.isPresent p = true ↔ ∃ place, t.locate p = .ok place ∧ t.node? place ≠ none := by
  unfold isPresent FileTree.find
  cases hl : t.locate p with
  | error e => simp [Except.toBool]
  | ok place => cases hnode : t.node? place <;> simp [hnode, Except.toBool]

theorem isPresent_eq_false_iff :
    t.isPresent p = false ↔ ∀ place, t.locate p = .ok place → t.node? place = none := by
  rw [← Bool.not_eq_true, isPresent_iff]
  simp only [not_exists, not_and, not_not]

theorem Changes.isPresent_eq (h : Changes may t t')
    (hmay : ∀ place, t.locate p = .ok place → (t'.node? place = none ↔ t.node? place = none)) :
    t'.isPresent p = t.isPresent p := by
  rw [Bool.eq_iff_iff, isPresent_iff, isPresent_iff]
  simp only [h.locate_eq_ok_iff]
  exact exists_congr fun place => and_congr_right fun hl => not_congr (hmay place hl)

theorem changes_of_update {node : Option FileNode} (hdir : t.node? place ≠ some .directory)
    (hnode : node ≠ some .directory) (h : t'.node? = Function.update t.node? place node) :
    Changes (fun p n => p = place ∧ n = node) t t' := by
  constructor
  · intro p
    rw [h, Function.update_apply]
    split_ifs with hp
    · subst hp
      exact iff_of_false hnode hdir
    · exact Iff.rfl
  · intro p
    rw [h, Function.update_apply]
    split_ifs with hp
    · exact Or.inr ⟨hp, rfl⟩
    · exact Or.inl rfl

theorem node?_insert_eq (h : t.node? place ≠ some .directory) (node : FileNode) :
    (⟨t.nodes.insert place node⟩ : FileTree).node? =
      Function.update t.node? place (some node) := by
  funext p
  rw [node?_insert (ne_nil_of_not_directory h), Function.update_apply]
  simp only [eq_comm]

theorem node?_erase_eq (h : t.node? place ≠ some .directory) :
    (⟨t.nodes.erase place⟩ : FileTree).node? = Function.update t.node? place none := by
  funext p
  rw [node?_erase (ne_nil_of_not_directory h), Function.update_apply]
  simp only [eq_comm]

theorem remove_eq_ok (h : t.remove p = .ok t') :
    ∃ place, t.LeadsTo p place ∧ t'.node? = Function.update t.node? place none := by
  unfold remove at h
  split at h
  · cases h
  · rename_i place hl
    split at h
    · cases h
    · cases h
    · rename_i hnode
      have hdir : t.node? place ≠ some .directory := by rw [hnode]; simp
      obtain rfl := Except.ok.inj h
      exact ⟨place, ⟨hl, hdir⟩, node?_erase_eq hdir⟩

theorem node?_of_write (h : t.write p bytes = .ok t') :
    ∃ place, t.LeadsTo p place ∧
      t'.node? = Function.update t.node? place (some (.file bytes)) := by
  obtain ⟨place, hl, hdir, rfl⟩ := write_eq_ok h
  exact ⟨place, ⟨hl, hdir⟩, node?_insert_eq hdir _⟩

theorem changes_of_touch (h : t.touch p = .ok t') :
    ∃ place, t.LeadsTo p place ∧ (t'.node? place).isSome ∧
      Changes (fun q node => q = place ∧ t.node? q = none ∧ node = some (.file [])) t t' := by
  obtain ⟨place, hl, hdir, hsame⟩ := touch_eq_ok h
  have hp : t.LeadsTo p place := ⟨hl, hdir⟩
  refine ⟨place, hp, ?_, ?_⟩
  · rcases hsame with rfl | ⟨-, rfl⟩
    · unfold touch at h
      split at h
      · rename_i bytes hfind
        rw [hp.find] at hfind
        cases hnode : t'.node? place with
        | none => simp [hnode] at hfind
        | some node => rfl
      · obtain ⟨place', hl', hdir', ht'⟩ := write_eq_ok h
        obtain rfl := Except.ok.inj (hl.symm.trans hl')
        rw [ht', node?_insert_eq hdir, Function.update_self]
        rfl
    · rw [node?_insert_eq hdir, Function.update_self]
      rfl
  · rcases hsame with rfl | ⟨hnone, rfl⟩
    · exact .refl
    · refine (changes_of_update hdir (by simp) (node?_insert_eq hdir _)).mono ?_
      rintro q node ⟨rfl, rfl⟩
      exact ⟨rfl, hnone, rfl⟩

/-- Touching a file that is there does nothing. -/
theorem touch_of_isSome (hp : t.LeadsTo p place) (h : (t.node? place).isSome) :
    t.touch p = .ok t := by
  obtain ⟨node, hnode⟩ := Option.isSome_iff_exists.mp h
  cases node with
  | directory => exact absurd hnode hp.file
  | file bytes => rw [touch, hp.find, hnode]; rfl

end

/-! ## Where a file may be put -/

/-- What is above a place is a directory. -/
def Rooted (t : FileTree) (place : List String) : Prop :=
  ∀ n < place.length, t.node? (place.take n) = some .directory

section

variable {t t' : FileTree} {p dest : Path} {place q : List String}

theorem Rooted.step (h : t.Rooted place) {part : String} (hs : t.step place part = .ok q) :
    t.Rooted q := by
  unfold FileTree.step at hs
  split at hs
  · cases hs
  · cases hs
  · rename_i hdir
    split_ifs at hs
    · exact Except.ok.inj hs ▸ h
    · obtain rfl := Except.ok.inj hs
      intro n hn
      rw [List.length_dropLast] at hn
      rw [List.dropLast_eq_take, List.take_take, Nat.min_eq_left (by omega)]
      exact h n (by omega)
    · obtain rfl := Except.ok.inj hs
      intro n hn
      rw [List.length_append, List.length_singleton] at hn
      rw [List.take_append_of_le_length (by omega)]
      rcases Nat.lt_or_eq_of_le (Nat.le_of_lt_succ hn) with hlt | rfl
      · exact h n hlt
      · rwa [List.take_length]

theorem Rooted.walk (h : t.Rooted place) {names : List String}
    (hw : t.walk place names = .ok q) : t.Rooted q := by
  induction names generalizing place with
  | nil => exact Except.ok.inj hw ▸ h
  | cons name rest ih =>
    rw [FileTree.walk] at hw
    cases hs : t.step place name with
    | error e => simp [hs] at hw
    | ok r =>
      rw [hs] at hw
      exact ih (h.step hs) hw

theorem rooted_nil (t : FileTree) : t.Rooted [] := fun _ hn => absurd hn (Nat.not_lt_zero _)

theorem Rooted.dropLast (h : t.Rooted place) : t.node? place.dropLast = some .directory := by
  rw [List.dropLast_eq_take]
  rcases Nat.eq_zero_or_pos place.length with hzero | hpos
  · rw [hzero, Nat.zero_sub, List.take_zero]
    rfl
  · exact h _ (by omega)

/-- A path to a file ends in a name, not in a slash, a dot or two dots. -/
theorem LeadsTo.endsIn (h : t.LeadsTo p place) : ∃ name, p.EndsIn name := by
  obtain ⟨-, hwalk⟩ := locate_eq_ok h.locate
  obtain ⟨front, last, hparts, -⟩ := Path.parts_append p
  rw [hparts] at hwalk
  obtain ⟨above, habove, hstep⟩ := walk_concat hwalk
  have hrooted := (rooted_nil t).walk habove
  have hfile := h.file
  unfold step at hstep
  split at hstep
  · cases hstep
  · cases hstep
  · rename_i hdir
    split_ifs at hstep with hhere hup
    · exact absurd (Except.ok.inj hstep ▸ hdir) hfile
    · exact absurd (Except.ok.inj hstep ▸ hrooted.dropLast) hfile
    · rw [not_or] at hhere
      exact ⟨last, by rw [hparts, List.getLast?_concat], hhere.1, hhere.2, hup⟩

theorem directory_of_step {name : String} (h : t.step place name = .ok q) :
    t.node? place = some .directory := by
  unfold step at h
  split at h
  · cases h
  · cases h
  · assumption

theorem LeadsTo.landing (h : t.LeadsTo p place) : t.landing p = .ok place := by
  obtain ⟨name, hname⟩ := h.endsIn
  obtain ⟨husable, hwalk⟩ := locate_eq_ok h.locate
  obtain ⟨front, hfront⟩ := List.getLast?_eq_some_iff.mp hname.last
  rw [hfront] at hwalk
  obtain ⟨above, habove, hstep⟩ := walk_concat hwalk
  have hback : t.walk [] (front ++ [""]) = .ok above := by
    simp only [walk_append, habove, Except.bind, FileTree.walk,
      step_empty (directory_of_step hstep)]
  unfold FileTree.landing
  simp only [husable, hfront, dropSlashes_append hname.nonempty, List.dropLast_concat, hback,
    List.getLast?_concat]
  split
  · simp_all
  · simp_all
  · exact absurd (by simp_all) hname.notHere
  · exact absurd (by simp_all) hname.notUp
  · rename_i above' name' _ _ habove' hlast
    obtain rfl := Except.ok.inj habove'
    obtain rfl := Option.some.inj hlast
    simp [hstep]

theorem locate_of_landing (h : t.landing p = .ok place) : t.locate p = .ok place := by
  unfold FileTree.landing at h
  split at h
  · cases h
  · cases h
  · rename_i parts husable
    obtain ⟨-, -, -, rfl⟩ := usableParts_eq_ok husable
    dsimp only at h
    split at h
    · cases h
    · cases h
    · cases h
    · cases h
    · rename_i above name _ _ habove hlast
      obtain ⟨front, hfront⟩ := List.getLast?_eq_some_iff.mp hlast
      split at h
      · cases h
      · rename_i place' hstep
        split_ifs at h with hlength
        obtain rfl := Except.ok.inj h
        -- no slash follows the name
        obtain ⟨n, hn⟩ := dropSlashes_append_replicate p.parts
        have hlen := congrArg List.length hn
        rw [List.length_append, List.length_replicate] at hlen
        obtain rfl : n = 0 := by omega
        rw [List.replicate_zero, List.append_nil] at hn
        rw [hfront, List.dropLast_concat] at habove
        obtain ⟨above', habove', hempty⟩ := walk_concat habove
        obtain ⟨rfl, -⟩ := step_empty_eq_ok hempty
        simp only [locate, husable]
        rw [hn, hfront]
        simp only [walk_append, habove', Except.bind, FileTree.walk, hstep]

end

/-! ## Temporary files -/

theorem tempName_injective {m n : Nat} (h : tempName m = tempName n) : m = n := by
  have hlist := congrArg String.toList ((String.append_right_inj ".tmp").mp h)
  have hvalue := congrArg (fun digits => Nat.ofDigitChars 10 digits 0) hlist
  simpa using hvalue

section

variable {t t' : FileTree} {dir p dest : Path} {place q : List String} {bytes : List UInt8}

/-- Not every temporary file that is tried can be there: there are more of them than files. -/
theorem exists_absent (t : FileTree) (dir : Path) :
    ∃ n ∈ List.range (t.nodes.size + 1), t.isPresent (dir.join (tempName n)) = false := by
  by_contra hall
  simp only [not_exists, not_and, Bool.not_eq_false] at hall
  have hsub : (List.range (t.nodes.size + 1)).map tempName ⊆
      t.nodes.keys.filterMap List.getLast? := by
    intro name hname
    obtain ⟨n, hn, rfl⟩ := List.mem_map.mp hname
    obtain ⟨place, hl, hnode⟩ := isPresent_iff.mp (hall n hn)
    have hlast := ((isTemp_tempName n).endsIn_join dir).getLast?_of_locate hl
    have hne : place ≠ [] := by
      rintro rfl
      cases hlast
    rw [node?, if_neg (by simpa using hne)] at hnode
    exact List.mem_filterMap.mpr
      ⟨place, Table.mem_keys_iff.mpr (Option.ne_none_iff_exists'.mp hnode), hlast⟩
  have hnodup : ((List.range (t.nodes.size + 1)).map tempName).Nodup :=
    List.nodup_range.map fun _ _ => tempName_injective
  have hlen := (List.subperm_of_subset hnodup hsub).length_le
  have hkeys : t.nodes.keys.length = t.nodes.size := List.length_map ..
  have hfilter := List.length_filterMap_le List.getLast? t.nodes.keys
  rw [List.length_map, List.length_range] at hlen
  omega

/-- A temporary file gets the first number that is free. -/
theorem freshName_spec (t : FileTree) (dir : Path) : ∃ n, t.freshName dir = tempName n ∧
    t.isPresent (dir.join (tempName n)) = false ∧
    ∀ m < n, t.isPresent (dir.join (tempName m)) = true := by
  obtain ⟨free, hfree, habsent⟩ := exists_absent t dir
  have htried : t.freshName dir = (((List.range (t.nodes.size + 1)).find? fun n =>
      !t.isPresent (dir.join (tempName n))).map tempName).getD ".tmp" := by
    change (List.find? _ (List.map tempName _)).getD ".tmp" = _
    rw [List.find?_map]
    rfl
  cases hfound : (List.range (t.nodes.size + 1)).find? fun n =>
      !t.isPresent (dir.join (tempName n)) with
  | none =>
    have hpresent := List.find?_eq_none.mp hfound free hfree
    simp [habsent] at hpresent
  | some n =>
    obtain ⟨hn, -, hbelow⟩ := List.find?_range_eq_some.mp hfound
    refine ⟨n, by rw [htried, hfound]; rfl, by simpa using hn, fun m hm => ?_⟩
    simpa using hbelow m hm

theorem freshName_congr
    (h : ∀ n, t'.isPresent (dir.join (tempName n)) = t.isPresent (dir.join (tempName n))) :
    t'.freshName dir = t.freshName dir := by
  obtain ⟨m, hm, habsent, hbelow⟩ := t.freshName_spec dir
  obtain ⟨n, hn, habsent', hbelow'⟩ := t'.freshName_spec dir
  rw [hm, hn]
  rcases Nat.lt_trichotomy m n with hlt | rfl | hlt
  · have hpresent := hbelow' m hlt
    rw [h, habsent] at hpresent
    cases hpresent
  · rfl
  · have hpresent := hbelow n hlt
    rw [← h, habsent'] at hpresent
    cases hpresent

/-- Where the temporary file is put nothing stands. -/
theorem node?_freshName (h : t.locate (dir.join (t.freshName dir)) = .ok q) : t.node? q = none := by
  obtain ⟨n, hn, habsent, -⟩ := t.freshName_spec dir
  exact isPresent_eq_false_iff.mp habsent q (hn ▸ h)

theorem createTemp_of_locate (h : t.locate (dir.join (t.freshName dir)) = .ok q) :
    (Files.createTemp dir : StateM FileTree _) t =
      (.ok (dir.join (t.freshName dir)), ⟨t.nodes.insert q (.file [])⟩) := by
  have hwrite : t.write (dir.join (t.freshName dir)) [] = .ok ⟨t.nodes.insert q (.file [])⟩ := by
    simp only [FileTree.write, h, node?_freshName h]
  simp only [Files.createTemp, hwrite]

theorem createTemp_of_error {e : FileError}
    (h : t.locate (dir.join (t.freshName dir)) = .error e) :
    (Files.createTemp dir : StateM FileTree _) t = (.error e, t) := by
  have hwrite : t.write (dir.join (t.freshName dir)) [] = .error e := by
    simp only [FileTree.write, h]
  simp only [Files.createTemp, hwrite]

/-! ## Replacing a file -/

/-- The tree with the temporary file, written. -/
theorem write_temp (h : t.locate (dir.join (t.freshName dir)) = .ok q) (bytes : List UInt8) :
    ∃ t₂, (Files.write (dir.join (t.freshName dir)) bytes : StateM FileTree _)
        ⟨t.nodes.insert q (.file [])⟩ = (.ok (), t₂) ∧
      t₂.LeadsTo (dir.join (t.freshName dir)) q ∧
      t₂.node? = Function.update t.node? q (some (.file bytes)) := by
  have hdir : t.node? q ≠ some .directory := by rw [node?_freshName h]; simp
  have hcreated := node?_insert_eq hdir (.file [])
  have hdir₁ : (⟨t.nodes.insert q (.file [])⟩ : FileTree).node? q ≠ some .directory := by
    rw [hcreated, Function.update_self]
    simp
  have hlocate := (changes_of_update hdir (by simp) hcreated).locate_eq_ok_iff.mpr h
  have hwritten := node?_insert_eq hdir₁ (.file bytes)
  refine ⟨_, update_apply (by simp only [FileTree.write, hlocate, hcreated, Function.update_self]),
    ⟨(changes_of_update hdir₁ (by simp) hwritten).locate_eq_ok_iff.mpr hlocate, ?_⟩, ?_⟩
  · rw [hwritten, Function.update_self]
    simp
  · rw [hwritten, hcreated, Function.update_idem]

/-- A file goes to where its new path leads. -/
theorem rename_of_leadsTo (hp : t.LeadsTo p q) (hfile : t.node? q = some (.file bytes))
    (hdest : t.LeadsTo dest place) :
    ∃ t', (Files.rename p dest : StateM FileTree _) t = (.ok (), t') ∧
      t'.node? = Function.update (Function.update t.node? q none) place (some (.file bytes)) := by
  have herased := node?_erase_eq hp.file
  have hdir : (⟨t.nodes.erase q⟩ : FileTree).node? place ≠ some .directory := by
    have herase := changes_of_update hp.file (by simp) herased
    exact fun hnode => hdest.file ((herase.directory_iff place).mp hnode)
  have hrename : t.rename p dest = .ok ⟨(t.nodes.erase q).insert place (.file bytes)⟩ := by
    have hplace := hdest.file
    simp only [FileTree.rename, hp.locate, hp.read_eq_ok_iff.mpr hfile, hdest.landing]
  refine ⟨_, update_apply hrename, ?_⟩
  rw [node?_insert_eq (t := ⟨t.nodes.erase q⟩) hdir, herased]

theorem rename_of_not_leadsTo (hp : t.LeadsTo p q) (hfile : t.node? q = some (.file bytes))
    (hdest : ∀ place, ¬ t.LeadsTo dest place) :
    ∃ e, (Files.rename p dest : StateM FileTree _) t = (.error e, t) := by
  have hrename : ∃ e, t.rename p dest = .error e := by
    simp only [FileTree.rename, hp.locate, hp.read_eq_ok_iff.mpr hfile]
    cases hland : t.landing dest with
    | error e => exact ⟨e, rfl⟩
    | ok place =>
      have hdir : t.node? place = some .directory :=
        not_not.mp fun hdir => hdest place ⟨locate_of_landing hland, hdir⟩
      simp only [hdir]
      exact ⟨_, rfl⟩
  obtain ⟨e, hrename⟩ := hrename
  refine ⟨e, ?_⟩
  change update (fun t => t.rename p dest) t = _
  simp only [update, hrename]

/-- A temporary file can be made in the directory, and the path leads to where a file may be. -/
def Replaces (t : FileTree) (dir dest : Path) : Prop :=
  ∃ q place, t.locate (dir.join (t.freshName dir)) = .ok q ∧ t.LeadsTo dest place

/-- A file that could be replaced still can, unless temporary files came or went. -/
theorem Replaces.changes {may : List String → Option FileNode → Prop} (h : t.Replaces dir dest)
    (hch : t.Changes may t') (htemp : ∀ n place, t.locate (dir.join (tempName n)) = .ok place →
      (t'.node? place = none ↔ t.node? place = none)) : t'.Replaces dir dest := by
  obtain ⟨q, place, hq, hplace⟩ := h
  have hname : t'.freshName dir = t.freshName dir :=
    freshName_congr fun n => hch.isPresent_eq (htemp n)
  exact ⟨q, place, hname ▸ hch.locate_eq_ok_iff.mpr hq, hch.leadsTo_iff.mpr hplace⟩

/-- If a file is replaced no other one differs, and if it is not none does. -/
theorem replaceFile_cases (dir dest : Path) (bytes : List UInt8) (t : FileTree) :
    (t.Replaces dir dest ∧ ∃ place t', t.LeadsTo dest place ∧
      (replaceFile dir dest bytes : StateM FileTree _) t = (.ok (), t') ∧
      t'.node? = Function.update t.node? place (some (.file bytes))) ∨
    (¬ t.Replaces dir dest ∧ ∃ e t',
      (replaceFile dir dest bytes : StateM FileTree _) t = (.error e, t') ∧ t'.node? = t.node?) := by
  cases hl : t.locate (dir.join (t.freshName dir)) with
  | error e =>
    refine Or.inr ⟨?_, .io dir e, t, ?_, rfl⟩
    · rintro ⟨q, -, hq, -⟩
      cases hl.symm.trans hq
    · rw [replaceFile, bind_apply, createTemp_of_error hl]
      rfl
  | ok q =>
    obtain ⟨t₂, hwrite, htemp, hnode₂⟩ := write_temp hl bytes
    have hfree := node?_freshName hl
    have hchanges := changes_of_update (by rw [hfree]; simp) (by simp) hnode₂
    have hfile : t₂.node? q = some (.file bytes) := by rw [hnode₂, Function.update_self]
    -- without the temporary file the tree is what it was
    have hsame : Function.update t₂.node? q none = t.node? := by
      rw [hnode₂, Function.update_idem, ← hfree, Function.update_eq_self]
    rw [replaceFile, bind_apply, createTemp_of_locate hl]
    simp only [bind_apply, hwrite]
    by_cases hdest : ∃ place, t.LeadsTo dest place
    · obtain ⟨place, hdest⟩ := hdest
      obtain ⟨t₃, hrename, hnode₃⟩ :=
        rename_of_leadsTo htemp hfile (hchanges.leadsTo_iff.mpr hdest)
      refine Or.inl ⟨⟨q, place, hl, hdest⟩, place, t₃, hdest, ?_, by rw [hnode₃, hsame]⟩
      rw [hrename]
      rfl
    · obtain ⟨e, hrename⟩ := rename_of_not_leadsTo htemp hfile fun place hplace =>
        hdest ⟨place, hchanges.leadsTo_iff.mp hplace⟩
      have hremove : (Files.remove (dir.join (t.freshName dir)) : StateM FileTree _) t₂ =
          (.ok (), ⟨t₂.nodes.erase q⟩) :=
        update_apply (by simp only [FileTree.remove, htemp.locate, hfile])
      refine Or.inr ⟨?_, .io dest e, ⟨t₂.nodes.erase q⟩, ?_, ?_⟩
      · rintro ⟨_, place, -, hplace⟩
        exact hdest ⟨place, hplace⟩
      · rw [hrename]
        simp only [bind_apply, hremove]
        rfl
      · rw [node?_erase_eq htemp.file, hsame]

/-! ## Removing a file -/

theorem removeFile_cases (p : Path) (t : FileTree) :
    (∃ e, (removeFile p : StateM FileTree _) t = (.error e, t)) ∨
    ((removeFile p : StateM FileTree _) t = (.ok (), t) ∧ t.isPresent p = false) ∨
    ∃ place t', t.LeadsTo p place ∧ (removeFile p : StateM FileTree _) t = (.ok (), t') ∧
      t'.node? = Function.update t.node? place none := by
  have hpresent : (Files.isPresent p : StateM FileTree _) t = (t.isPresent p, t) := rfl
  cases habsent : t.isPresent p with
  | false =>
    refine Or.inr (Or.inl ⟨?_, rfl⟩)
    rw [removeFile, bind_apply, hpresent, habsent]
    rfl
  | true =>
    obtain ⟨place, hl, hthere⟩ := isPresent_iff.mp habsent
    obtain ⟨node, hnode⟩ := Option.ne_none_iff_exists'.mp hthere
    cases node with
    | directory => exact Or.inl ⟨_, Store.removeFile_of_directory hl hnode⟩
    | file bytes =>
      have hdir : t.node? place ≠ some .directory := by rw [hnode]; simp
      exact Or.inr (Or.inr ⟨place, _, ⟨hl, hdir⟩, Store.removeFile_of_file hl hnode,
        node?_erase_eq hdir⟩)

end

end FileTree

end KernelForge

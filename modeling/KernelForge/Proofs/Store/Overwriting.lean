import KernelForge.Proofs.Store.Places
import KernelForge.Proofs.Store.Programs

/-!
# Files that are written again

A tree forgets what a file held before it was written, so that a file that is written twice leaves
the tree that the second writing alone would have left. Making another file in between makes no
difference if the first file is there.
-/
namespace KernelForge

/-! ## Putting again -/

namespace Table

variable {κ ν : Type} [DecidableEq κ] {k l : κ} {v w : ν} {pairs : List (κ × ν)}

theorem put_put (k : κ) (v w : ν) (pairs : List (κ × ν)) :
    put k v (put k w pairs) = put k v pairs := by
  induction pairs with
  | nil => simp only [put, if_true]
  | cons p rest ih =>
    obtain ⟨m, u⟩ := p
    by_cases hm : m = k
    · simp only [put, hm, if_true]
    · simp only [put, hm, if_false, ih]

theorem put_of_lookup (h : lookup k pairs = some v) : put k v pairs = pairs := by
  induction pairs with
  | nil => cases h
  | cons p rest ih =>
    obtain ⟨m, u⟩ := p
    rw [lookup] at h
    rw [put]
    split_ifs at h ⊢ with hm
    · rw [Option.some.inj h]
    · rw [ih h]

/-- A key that is there keeps its place when another one is put. -/
theorem put_comm (hne : k ≠ l) (hk : (lookup k pairs).isSome) :
    put k v (put l w pairs) = put l w (put k v pairs) := by
  induction pairs with
  | nil => cases hk
  | cons p rest ih =>
    obtain ⟨m, u⟩ := p
    by_cases hmk : m = k
    · subst hmk
      simp only [put, hne, if_true, if_false]
    · by_cases hml : m = l
      · subst hml
        simp only [put, hmk, if_true, if_false]
      · rw [lookup, if_neg hmk] at hk
        simp only [put, hmk, hml, if_false, ih hk]

theorem insert_insert (t : Table κ ν) (k : κ) (v w : ν) :
    (t.insert k w).insert k v = t.insert k v :=
  ext (put_put k v w t.toList)

theorem insert_of_get? {t : Table κ ν} (h : t.get? k = some v) : t.insert k v = t :=
  ext (put_of_lookup h)

theorem insert_comm {t : Table κ ν} (hne : k ≠ l) (hk : (t.get? k).isSome) :
    (t.insert l w).insert k v = (t.insert k v).insert l w :=
  ext (put_comm hne hk)

end Table

namespace FileTree

variable {t t₁ t' : FileTree} {p q dir : Path} {place : List String} {bytes : List UInt8}

theorem get?_of_node? (hdir : t.node? place ≠ some .directory) :
    t.nodes.get? place = t.node? place := by
  have hne := ne_nil_of_not_directory hdir
  cases place with
  | nil => exact absurd rfl hne
  | cons name rest => rfl

/-! ## Writing again -/

theorem write_of_leadsTo (h : t.LeadsTo p place) (bytes : List UInt8) :
    t.write p bytes = .ok ⟨t.nodes.insert place (.file bytes)⟩ := by
  have hfile := h.file
  rw [write, h.locate]
  dsimp only
  split
  · exact absurd ‹_› hfile
  · rfl

theorem changes_of_write (h : t.write p bytes = .ok t') :
    t.Changes (fun q node => t.LeadsTo p q ∧ node = some (.file bytes)) t' := by
  obtain ⟨place, hplace, hnode⟩ := node?_of_write h
  refine (changes_of_update hplace.file (by simp) hnode).mono ?_
  rintro q node ⟨rfl, rfl⟩
  exact ⟨hplace, rfl⟩

theorem read_of_write (h : t.write p bytes = .ok t') : t'.read p = .ok bytes := by
  have hch := changes_of_write h
  obtain ⟨place, hplace, hnode⟩ := node?_of_write h
  refine read_of_node (hch.leadsTo_iff.mpr hplace).locate ?_
  rw [hnode, Function.update_self]

theorem write_of_write (h : t.write p bytes = .ok t') (bytes' : List UInt8) :
    t'.write p bytes' = t.write p bytes' := by
  have hch := changes_of_write h
  obtain ⟨place, hplace, -⟩ := node?_of_write h
  rw [write_of_leadsTo hplace] at h
  rw [write_of_leadsTo (hch.leadsTo_iff.mpr hplace), write_of_leadsTo hplace, ← Except.ok.inj h,
    Table.insert_insert]

theorem write_of_read (h : t.read p = .ok bytes) : t.write p bytes = .ok t := by
  obtain ⟨place, hplace, hnode⟩ := leadsTo_of_read h
  rw [write_of_leadsTo hplace, Table.insert_of_get?]
  rw [get?_of_node? hplace.file, hnode]

theorem exists_touch (h : t.LeadsTo q place) : ∃ t₁, t.touch q = .ok t₁ :=
  touch_isOk h.locate h.file

theorem touch_of_none (h : t.LeadsTo q place) (hnone : t.node? place = none) :
    t.touch q = .ok ⟨t.nodes.insert place (.file [])⟩ := by
  rw [touch, h.find, hnone]
  exact write_of_leadsTo h []

/-- It does not matter whether a file is written before another one is made or afterwards. -/
theorem write_of_touch (hne : ∀ place, t.LeadsTo p place → ¬ t.LeadsTo q place)
    (hread : t.read p = .ok bytes) (htouch : t.touch q = .ok t₁) (bytes' : List UInt8) :
    ∃ t' t₁', t.write p bytes' = .ok t' ∧ t₁.write p bytes' = .ok t₁' ∧
      t'.touch q = .ok t₁' := by
  obtain ⟨place, hplace, hnode⟩ := leadsTo_of_read hread
  obtain ⟨lock, hl, hdir, hsame⟩ := touch_eq_ok htouch
  have hlock : t.LeadsTo q lock := ⟨hl, hdir⟩
  have hother : place ≠ lock := by
    rintro rfl
    exact hne place hplace hlock
  have hwrite := write_of_leadsTo hplace bytes'
  have hch := changes_of_write hwrite
  obtain ⟨lock', hlock', hisSome, hch₁⟩ := changes_of_touch htouch
  obtain rfl := hlock.unique hlock'
  have hstays : (⟨t.nodes.insert place (.file bytes')⟩ : FileTree).node? lock = t.node? lock := by
    rw [node?_insert_eq hplace.file, Function.update_of_ne (Ne.symm hother)]
  refine ⟨_, _, hwrite, write_of_leadsTo (hch₁.leadsTo_iff.mpr hplace) bytes', ?_⟩
  rcases hsame with rfl | ⟨hnone, rfl⟩
  · exact touch_of_isSome (hch.leadsTo_iff.mpr hlock) (hstays ▸ hisSome)
  · have hthere : (t.nodes.get? place).isSome := by
      rw [get?_of_node? hplace.file, hnode]
      rfl
    rw [touch_of_none (hch.leadsTo_iff.mpr hlock) (hstays.trans hnone),
      Table.insert_comm hother hthere]

/-! ## Directories that are there -/

theorem Changes.opens {may : List String → Option FileNode → Prop} (hch : t.Changes may t')
    (h : t.Opens dir place) : t'.Opens dir place :=
  ⟨h.leads.imp_right hch.locate_eq_ok_iff.mpr, (hch.directory_iff place).mpr h.directory⟩

theorem walk_slashes (h : t.node? place = some .directory) (n : ℕ) :
    t.walk place (List.replicate n "") = .ok place := by
  induction n with
  | zero => rfl
  | succ n ih =>
    rw [List.replicate_succ, walk, step_empty h]
    exact ih

theorem opens_of_makeDir (h : t.makeDir dir = .ok t') : ∃ place, t'.Opens dir place := by
  unfold makeDir at h
  cases husable : usableParts dir with
  | error e => simp [husable] at h
  | ok parts =>
    cases hwalk : t.walk [] (dropSlashes parts) with
    | error e => simp [husable, hwalk] at h
    | ok place =>
      simp only [husable, hwalk] at h
      split_ifs at h with hsome
      have hnone : t.node? place = none := by simpa using hsome
      obtain rfl := Except.ok.inj h
      have hne : place ≠ [] := ne_nil_of_not_directory (t := t) (by simp [hnone])
      have hplace : (⟨t.nodes.insert place .directory⟩ : FileTree).node? place =
          some .directory := by
        rw [node?_insert hne, if_pos rfl]
      refine ⟨place, Or.inr ?_, hplace⟩
      have hdirs : ∀ r, t.node? r = some .directory →
          (⟨t.nodes.insert place .directory⟩ : FileTree).node? r = some .directory := by
        intro r hr
        rw [node?_insert hne]
        split_ifs
        · rfl
        · exact hr
      obtain ⟨n, hn⟩ := dropSlashes_append_replicate parts
      simp only [locate, husable]
      rw [hn, walk_append, walk_of_directories hdirs hwalk]
      exact walk_slashes hplace n

theorem opens_of_acceptDir {outcome : Except FileError Unit}
    (hmake : (Files.makeDir dir : StateM FileTree _) t = (outcome, t₁))
    (haccept : (Files.acceptDir dir outcome : StateM FileTree _) t₁ = (.ok (), t')) :
    ∃ place, t'.Opens dir place := by
  rcases update_cases (fun t => t.makeDir dir) t with ⟨t₂, hok, hupdate⟩ | ⟨e, hupdate⟩
  · obtain ⟨rfl, rfl⟩ := Prod.mk.inj (hupdate.symm.trans hmake)
    obtain ⟨-, rfl⟩ := Prod.mk.inj haccept
    exact opens_of_makeDir hok
  · obtain ⟨rfl, rfl⟩ := Prod.mk.inj (hupdate.symm.trans hmake)
    have hanswer : (Files.acceptDir dir (.error e) : StateM FileTree _) t =
        (if t.isDirectory dir then .ok () else .error e, t) := rfl
    obtain ⟨hthere, rfl⟩ := Prod.mk.inj (hanswer.symm.trans haccept)
    split_ifs at hthere with hdir
    unfold isDirectory find at hdir
    cases hl : t.locate dir with
    | error e => simp [hl] at hdir
    | ok place =>
      refine ⟨place, Or.inr hl, ?_⟩
      cases hnode : t.node? place with
      | none => simp [hl, hnode] at hdir
      | some node => cases node <;> simp [hl, hnode] at hdir ⊢

/-- A directory that was made with those above it is there. -/
theorem opens_of_makeDirs (h : (Files.makeDirs dir : StateM FileTree _) t = (.ok (), t')) :
    ∃ place, t'.Opens dir place := by
  unfold Files.makeDirs at h
  split_ifs at h with hempty
  · exact ⟨[], Or.inl ⟨by simpa using hempty, rfl⟩, rfl⟩
  · generalize dir.above = aboves at h
    cases aboves with
    | nil => exact opens_of_acceptDir rfl h
    | cons above further =>
      rw [Files.makeDirWithin, bind_apply] at h
      generalize hmake : (Files.makeDir dir : StateM FileTree _) t = made at h
      obtain ⟨outcome, t₁⟩ := made
      dsimp only at h
      split at h
      · rw [bind_apply] at h
        generalize (Files.makeDirWithin above further : StateM FileTree _) t₁ = madeAbove at h
        obtain ⟨_ | _, t₂⟩ := madeAbove
        · cases h
        · exact opens_of_acceptDir rfl h
      · exact opens_of_acceptDir hmake h

end FileTree

end KernelForge

import KernelForge.Proofs.Store.Changes
import KernelForge.Proofs.Store.Outcomes

/-!
# Changes that fail

A store that fails to put a kernel or to purge its directory loses nothing. The index is as it was,
and so is every kernel file that holds its text. A store that fails to clear its directory leaves
the index alone too, but not the files, which it removes first.
-/
namespace KernelForge

open FileTree

namespace Store

open StoreConfig

/-! ## The files of a change -/

/-- The entries whose files a change may touch. These are the entries of the index and the one that
a kernel gets if it is new. -/
def Change.touched (c : StoreConfig) (entries : Entries) : Change → Entries
  | .put k =>
    if entries.contains (hashOf k) then entries
    else
      entries.insert (hashOf k)
        ⟨c.fileName k.role.name (hashOf k), k.role.name, k.provenance⟩
  | .purge | .clear => entries

theorem Change.get?_touched {c : StoreConfig} {entries : Entries} {h : ContentHash} {e : Entry}
    (hget : entries.get? h = some e) (change : Change) :
    (change.touched c entries).get? h = some e := by
  cases change with
  | put k =>
    rw [touched]
    split_ifs with hnew
    · exact hget
    · rw [Table.get?_insert, if_neg, hget]
      rintro rfl
      exact hnew (by rw [Table.contains, hget]; rfl)
  | _ => exact hget

theorem Change.keyed_touched {c : StoreConfig} {entries : Entries}
    (hkeyed : ∀ h e, entries.get? h = some e → Keyed c.extension h e.file) (change : Change) :
    ∀ h e, (change.touched c entries).get? h = some e → Keyed c.extension h e.file := by
  cases change with
  | put k =>
    rw [touched]
    split_ifs
    · exact hkeyed
    · intro h e hget
      rw [Table.get?_insert] at hget
      split_ifs at hget with hk
      · obtain rfl := Option.some.inj hget
        exact hk ▸ c.keyed_fileName k.role.name (hashOf k)
      · exact hkeyed h e hget
  | _ => exact hkeyed

/-! ## Failed steps -/

/-- What a failed change may leave at a last name: a temporary file, or under the name of the file
of an entry what is said to be there. -/
def Leaves (c : StoreConfig) (entries : Entries) (may : ContentHash → Option FileNode → Prop)
    (name : String) (node : Option FileNode) : Prop :=
  IsTemp name ∨ ∃ h, c.Owns entries h name ∧ may h node

section

variable {c : StoreConfig} {may : ContentHash → Option FileNode → Prop} {d d' : Disk}
  {entries owners : Entries} {e : StoreError}

/-- Whether a file is fresh is read off its bytes, if these can be read. -/
theorem isFresh_unchanged (p : Path) (h : ContentHash) (d : Disk) :
    d.Unchanged ((isFresh p h : StateM Disk _) d).2 ∧
      ∀ text, ((Files.read p : StateM Disk _) d).1 = .ok (Text.Utf8.bytes text) →
        ContentHash.ofText text = h → ((isFresh p h : StateM Disk _) d).1 = true := by
  have hread := Disk.read_unchanged p d
  rw [isFresh, bind_apply]
  generalize (Files.read p : StateM Disk _) d = answer at hread ⊢
  obtain ⟨_ | bytes, d₁⟩ := answer
  · exact ⟨hread, fun text h => by cases h⟩
  · refine ⟨?_, fun text hbytes hhash => ?_⟩
    · dsimp only
      cases Text.Utf8.decode bytes <;> exact hread
    · obtain rfl := Except.ok.inj hbytes
      simp only [Text.Utf8.decode_bytes, pure_apply]
      simpa using hhash

theorem staleEntries_spec (c : StoreConfig) (pairs : List (ContentHash × Entry)) (d : Disk) :
    let out := (staleEntries c pairs : StateM Disk _) d
    d.Unchanged out.2 ∧ ∀ s ∈ out.1, ∃ e, (s.1, e) ∈ pairs ∧ s.2 = c.filePath e.file ∧
      ((∀ n, d.accidents n (.read s.2) = none) → ¬ c.Intact d.tree s.1 e) := by
  induction pairs generalizing d with
  | nil => exact ⟨.refl, fun s hs => by cases hs⟩
  | cons pair rest ih =>
    obtain ⟨h, e⟩ := pair
    obtain ⟨hfresh, htrue⟩ := isFresh_unchanged (c.filePath e.file) h d
    rw [staleEntries, bind_apply]
    dsimp only
    have hread := Disk.read_apply (d := d) (p := c.filePath e.file)
    generalize (isFresh (c.filePath e.file) h : StateM Disk _) d = answer at hfresh htrue ⊢
    obtain ⟨fresh, d₁⟩ := answer
    obtain ⟨hrest, hstale⟩ := ih d₁
    have hunchanged := hfresh.trans hrest
    rw [bind_apply]
    generalize (staleEntries c rest : StateM Disk _) d₁ = answers at hrest hstale hunchanged ⊢
    obtain ⟨stale, d₂⟩ := answers
    refine ⟨hunchanged, ?_⟩
    rw [hfresh.tree, hfresh.accidents] at hstale
    have hold : ∀ s ∈ stale, ∃ e', (s.1, e') ∈ (h, e) :: rest ∧ s.2 = c.filePath e'.file ∧
        ((∀ n, d.accidents n (.read s.2) = none) → ¬ c.Intact d.tree s.1 e') := by
      intro s hs
      obtain ⟨e', hmem, hrest⟩ := hstale s hs
      exact ⟨e', List.mem_cons_of_mem _ hmem, hrest⟩
    cases fresh with
    | true => exact hold
    | false =>
      intro s hs
      rcases List.mem_cons.mp hs with rfl | hs
      · refine ⟨e, List.mem_cons_self, rfl, fun hreadable hintact => ?_⟩
        obtain ⟨text, htext, hhash⟩ := hintact
        cases htrue text ((hread hreadable).trans htext) hhash
      · exact hold s hs

theorem Leaves.mono {may' : ContentHash → Option FileNode → Prop} {name : String}
    {node : Option FileNode} (h : Leaves c owners may name node)
    (himp : ∀ hash node, may hash node → may' hash node) : Leaves c owners may' name node := by
  refine h.imp_right ?_
  rintro ⟨hash, howns, hmay⟩
  exact ⟨hash, howns, himp hash node hmay⟩

theorem Leaves.of_temporary (h : d.Alters Disk.Temporary d') : d.Alters (Leaves c owners may) d' :=
  h.mono fun _ _ => Or.inl

/-- What is saved last has failed if anything has. -/
theorem save_alters {α : Type} (f : Unit → α)
    (h : (((c.save entries : StateM Disk _) d).1.map f) = .error e) :
    d.Alters (Leaves c owners may) ((c.save entries : StateM Disk _) d).2 := by
  obtain ⟨herror, -⟩ := Disk.replaceFile_alters c.dir c.indexPath (Index.encode entries.toList) d
  change Except.map f ((replaceFile c.dir c.indexPath _ : StateM Disk _) d).1 = _ at h
  change d.Alters _ ((replaceFile c.dir c.indexPath _ : StateM Disk _) d).2
  generalize (replaceFile c.dir c.indexPath _ : StateM Disk _) d = out at h herror ⊢
  obtain ⟨e' | _, d'⟩ := out
  · exact Leaves.of_temporary (herror e' rfl)
  · cases h

/-- A kernel that was not added left at most its own file. -/
theorem addKernel_alters {k : Kernel} (hapart : c.Apart ((Change.put k).touched c entries))
    (h : ((addKernel c k entries : StateM Disk _) d).1.1 = .error e) :
    d.Alters (Leaves c ((Change.put k).touched c entries) fun hash _ => entries.get? hash = none)
      ((addKernel c k entries : StateM Disk _) d).2 := by
  rw [addKernel] at h ⊢
  dsimp only at h ⊢
  split at h
  · cases h
  · rename_i hnew
    have hnone : entries.get? (hashOf k) = none := by
      simpa [Table.contains] using hnew
    rw [if_neg hnew, bind_apply]
    rw [bind_apply] at h
    have hget : ((Change.put k).touched c entries).get? (hashOf k) =
        some ⟨c.fileName k.role.name (hashOf k), k.role.name, k.provenance⟩ := by
      rw [Change.touched, if_neg hnew, Table.get?_insert, if_pos rfl]
    obtain ⟨name, hname⟩ := hapart.named _ _ hget
    obtain ⟨herror, halters⟩ := Disk.replaceFile_alters c.dir
      (c.filePath (c.fileName k.role.name (hashOf k))) (Text.Utf8.bytes k.source) d
    have hfile : d.Alters (Leaves c _ fun hash _ => entries.get? hash = none) _ :=
      (halters name hname).mono fun last _ hlast => hlast.imp_right fun heq : last = name =>
        ⟨hashOf k, ⟨_, hget, heq ▸ hname⟩, hnone⟩
    generalize (replaceFile c.dir _ _ : StateM Disk _) d = out at h herror hfile ⊢
    obtain ⟨e' | _, d₁⟩ := out
    · exact hfile
    · dsimp only at h ⊢
      rw [bind_apply, pure_apply] at h ⊢
      exact hfile.trans (save_alters (fun _ => true) h)

theorem purgeEntries_alters (hapart : c.Apart entries)
    (h : ((purgeEntries c entries : StateM Disk _) d).1.1 = .error e) :
    d.Alters (Leaves c entries fun hash _ => ∃ e, entries.get? hash = some e ∧
        ((∀ n, d.accidents n (.read (c.filePath e.file)) = none) → ¬ c.Intact d.tree hash e))
      ((purgeEntries c entries : StateM Disk _) d).2 := by
  rw [purgeEntries, bind_apply] at h ⊢
  obtain ⟨hunchanged, hstale⟩ := staleEntries_spec c entries.toList d
  generalize (staleEntries c entries.toList : StateM Disk _) d = out at h hunchanged hstale ⊢
  obtain ⟨stale, d₁⟩ := out
  dsimp only at h hunchanged hstale ⊢
  have hdrop : d₁.Alters (Leaves c entries fun hash _ => ∃ e, entries.get? hash = some e ∧
      ((∀ n, d.accidents n (.read (c.filePath e.file)) = none) → ¬ c.Intact d.tree hash e))
      ((dropAll entries stale : StateM Disk _) d₁).2 := by
    refine Disk.dropAll_alters (fun s hs => ?_) entries d₁
    obtain ⟨e, hmem, hpath, hintact⟩ := hstale s hs
    have hget := Table.mem_toList_iff.mp hmem
    obtain ⟨name, hname⟩ := hapart.named s.1 e hget
    exact ⟨name, hpath ▸ hname, Or.inr ⟨s.1, ⟨e, hget, hname⟩, e, hget, hpath ▸ hintact⟩⟩
  have halters := hunchanged.alters.trans hdrop
  rw [bind_apply] at h ⊢
  generalize (dropAll entries stale : StateM Disk _) d₁ = out at h halters ⊢
  obtain ⟨⟨e' | _, entries'⟩, d₂⟩ := out
  · exact halters
  · dsimp only at h ⊢
    split at h
    · cases h
    · rename_i hne
      rw [if_neg hne]
      rw [bind_apply, pure_apply] at h ⊢
      exact halters.trans (save_alters (fun _ => stale.length) h)

theorem clearEntries_alters (hapart : c.Apart entries)
    (h : ((clearEntries c entries : StateM Disk _) d).1.1 = .error e) :
    d.Alters (Leaves c entries fun _ node => node = none)
      ((clearEntries c entries : StateM Disk _) d).2 := by
  rw [clearEntries, bind_apply] at h ⊢
  have halters : d.Alters (Leaves c entries fun _ node => node = none)
      ((removeFiles (entries.values.map fun e => c.filePath e.file) : StateM Disk _) d).2 := by
    refine Disk.removeFiles_alters (fun p hp => ?_) d
    obtain ⟨e, he, rfl⟩ := List.mem_map.mp hp
    obtain ⟨⟨hash, e⟩, hpair, rfl⟩ := List.mem_map.mp he
    have hget := Table.mem_toList_iff.mp hpair
    obtain ⟨name, hname⟩ := hapart.named hash e hget
    exact ⟨name, hname, Or.inr ⟨hash, ⟨e, hget, hname⟩, rfl⟩⟩
  generalize (removeFiles _ : StateM Disk _) d = out at h halters ⊢
  obtain ⟨e' | _, d₁⟩ := out
  · exact halters
  · dsimp only at h ⊢
    rw [bind_apply, pure_apply] at h ⊢
    exact halters.trans (save_alters id (by rw [h]; rfl))

/-- A change that fails has altered nothing, or it has held the lock and altered nothing but what
its steps alter, given the entries of the index. -/
theorem change_alters {s : Store} {α : Type}
    {body : Entries → StateM Disk (Except StoreError α × Entries)}
    {may : Entries → FileTree → String → Option FileNode → Prop}
    (hbody : ∀ entries d', d'.accidents = d.accidents → s.config.stored? d.tree = some entries →
      ∀ e, (body entries d').1.1 = .error e →
        d'.Alters (may entries d'.tree) (body entries d').2)
    (h : (s.change body d).1.1 = .error e) :
    (s.change body d).2.tree = d.tree ∨ ∃ t₁, d.tree.touch s.config.lockPath = .ok t₁ ∧
      t₁.Alters (fun name node => ∃ entries, s.config.stored? d.tree = some entries ∧
        may entries t₁ name node) (s.change body d).2.tree := by
  rw [change_eq, bind_apply] at h ⊢
  rcases Disk.locked_cases s.config.lockPath true (s.lockedSteps body) d with
    ⟨e', d₁, hlocked, htree⟩ | ⟨d₁, htouch, haccidents, hlocked⟩
  · rw [hlocked]
    exact htree.imp_right fun htouch => ⟨d₁.tree, htouch, .refl⟩
  · refine Or.inr ⟨d₁.tree, htouch, ?_⟩
    rw [hlocked] at h ⊢
    dsimp only at h ⊢
    rw [pure_apply, lockedSteps, bind_apply] at h ⊢
    obtain ⟨hunchanged, hload, -⟩ := load_disk s.config d₁
    generalize (s.config.load : StateM Disk _) d₁ = out at h hunchanged hload ⊢
    obtain ⟨e' | entries, d₂⟩ := out
    · exact hunchanged.alters.tree
    · have hstored : s.config.stored? d.tree = some entries := by
        rw [stored?_of_touch htouch, hload entries rfl]
        rfl
      have hsteps := hbody entries d₂ (hunchanged.accidents.trans haccidents) hstored e h
      rw [hunchanged.tree] at hsteps
      exact (hunchanged.alters.trans
        (hsteps.mono fun name node hmay => ⟨entries, hstored, hmay⟩)).tree

end

/-- What a failed change may do to the file of an entry. Putting a kernel does nothing to it,
purging spares it if it is intact and can be read, and clearing may remove it. -/
def Change.Spoils (d : Disk) (c : StoreConfig) (t : FileTree) (h : ContentHash) (e : Entry)
    (node : Option FileNode) : Change → Prop
  | .put _ => False
  | .purge => (∀ n, d.accidents n (.read (c.filePath e.file)) = none) → ¬ c.Intact t h e
  | .clear => node = none

section

variable {s s' : Store} {change : Change} {d d' : Disk} {cause : StoreError}
  (hapart : ∀ entries, s.config.stored? d.tree = some entries →
    s.config.Apart (change.touched s.config entries))
  (hmake : (s.make change : StateM Disk _) d = ((some cause, s'), d'))
include hapart hmake

theorem make_alters :
    d'.tree = d.tree ∨ ∃ t₁, d.tree.touch s.config.lockPath = .ok t₁ ∧
      t₁.Alters (fun name node => ∃ entries, s.config.stored? d.tree = some entries ∧
        Leaves s.config (change.touched s.config entries) (fun h node =>
          ∀ e, entries.get? h = some e → change.Spoils d s.config t₁ h e node) name node)
        d'.tree := by
  have herror : ∀ {α : Type} {r : Except StoreError α}, failure r = some cause →
      r = .error cause := by
    intro α r hr
    cases r with
    | error e => rw [Option.some.inj hr]
    | ok a => cases hr
  have hfailed : ((s.make change : StateM Disk _) d).1.1 = some cause := by rw [hmake]
  have hdisk : d' = ((s.make change : StateM Disk _) d).2 := by rw [hmake]
  rw [hdisk]
  cases change with
  | put k =>
    rw [make, bind_apply, put] at hfailed ⊢
    by_cases hempty : k.provenance.isEmpty
    · rw [if_pos hempty]
      exact Or.inl rfl
    · rw [if_neg hempty] at hfailed ⊢
      refine change_alters (fun entries d' _ hstored e he => ?_) (herror hfailed)
      refine (addKernel_alters (hapart entries hstored) he).mono fun name node hleft =>
        hleft.mono fun h node hnone e' he' => ?_
      rw [hnone] at he'
      cases he'
  | purge =>
    rw [make, bind_apply, purge] at hfailed ⊢
    refine change_alters (fun entries d' haccidents hstored e he => ?_) (herror hfailed)
    refine (purgeEntries_alters (hapart entries hstored) he).mono fun name node hleft =>
      hleft.mono ?_
    rintro h node ⟨e₁, he₁, hintact⟩ e₂ he₂
    obtain rfl := Option.some.inj (he₁.symm.trans he₂)
    rwa [haccidents] at hintact
  | clear =>
    rw [make, bind_apply, clear] at hfailed ⊢
    refine change_alters (fun entries d' _ hstored e he => ?_) (herror hfailed)
    exact (clearEntries_alters (hapart entries hstored) he).mono fun name node hleft =>
      hleft.mono fun h node hnone _ _ => hnone

/-- The file of an entry whose text has its hash stays, unless the change spoils it. -/
theorem make_read (hc : s.config.NamesIndex) {entries : Entries}
    (hstored : s.config.stored? d.tree = some entries)
    {h : ContentHash} {e : Entry} (hget : entries.get? h = some e)
    (hintact : s.config.Intact d.tree h e) :
    s.config.Intact d'.tree h e ∨ ∃ t₁ node, s.config.Intact t₁ h e ∧
      change.Spoils d s.config t₁ h e node ∧
      d'.tree.find (s.config.filePath e.file) = node.elim (.error .notFound) .ok := by
  rcases make_alters hapart hmake with hsame | ⟨t₁, htouch, halters⟩
  · exact Or.inl (hsame ▸ hintact)
  · obtain ⟨lock, hlock⟩ := hc.endsIn_lock
    have hfiles := hapart entries hstored
    have htouched := change.get?_touched (c := s.config) hget
    obtain ⟨name, hname⟩ := hfiles.named h e htouched
    obtain ⟨text, htext, hhash⟩ := hintact
    have htext₁ := read_touch hlock htouch htext
    obtain ⟨place, hl, -⟩ := read_eq_ok htext₁
    rcases halters.find hname hl with heq | ⟨node, hleft, hfind⟩
    · refine Or.inl ⟨text, ?_, hhash⟩
      rwa [FileTree.read, heq, ← FileTree.read]
    · obtain ⟨entries', hstored', hleft⟩ := hleft
      obtain rfl := Option.some.inj (hstored.symm.trans hstored')
      rcases hleft with htemp | ⟨h', howns, hspoils⟩
      · exact absurd htemp (hfiles.own h name ⟨e, htouched, hname⟩).1
      · obtain rfl := hfiles.unique h h' name ⟨e, htouched, hname⟩ howns
        exact Or.inr ⟨t₁, node, ⟨text, htext₁, hhash⟩, hspoils e hget, hfind⟩

end

/-- In a directory that only stores have changed the files of the entries are apart. -/
theorem apart_of_kept {base : FileTree} {dir : Path} {place : List String} {L : Ledger} {w : Shared}
    (hb : base.Ready dir place) (hdir : dir.utf8ByteSize + 1 + longestFile ≤ longestPath)
    (h : L.Kept base dir place w) (hopen : 0 < L.opened) (change : Change) (entries : Entries)
    (hstored : (ofDir dir).stored? w.tree = some entries) :
    (ofDir dir).Apart (change.touched (ofDir dir) entries) := by
  obtain ⟨entries', hstored', hindexed⟩ := h.stored? hb hdir hopen
  obtain rfl := Option.some.inj (hstored.symm.trans hstored')
  refine apart_ofDir (change.keyed_touched (c := ofDir dir) fun hash e hget => ?_)
  rw [hindexed] at hget
  obtain ⟨k, hk, rfl⟩ := Option.map_eq_some_iff.mp hget
  obtain rfl := h.valid.hash hash k hk
  exact (ofDir "").keyed_fileName k.role.name (hashOf k)

/-- A change that fails, whichever of its calls do, leaves the index alone, and a store that is
refreshed has the entries that it would have had before. If a kernel was put or the directory was
purged, the kernels whose files were there with their texts are found as before, but purging spares
only files that it can read. If the directory was cleared, each of these files is there with its
text or it was removed. -/
theorem keeps_of_failed {s s' : Store} {change : Change} {d d' : Disk} {cause : StoreError}
    (hc : s.config.NamesIndex)
    (hapart : ∀ entries, s.config.stored? d.tree = some entries →
      s.config.Apart (change.touched s.config entries))
    (hmake : (s.make change : StateM Disk _) d = ((some cause, s'), d')) :
    d'.tree.find s.config.indexPath = d.tree.find s.config.indexPath ∧
    (∀ known, (((⟨s.config, known⟩ : Store).refresh : StateM FileTree _) d'.tree).1 =
      (((⟨s.config, known⟩ : Store).refresh : StateM FileTree _) d.tree).1) ∧
    ∀ entries h e, s.config.stored? d.tree = some entries → entries.get? h = some e →
      s.config.Intact d.tree h e →
      (change = .clear → s.config.Intact d'.tree h e ∨
        d'.tree.find (s.config.filePath e.file) = .error .notFound) ∧
      (change ≠ .clear →
        (change = .purge → ∀ n, d.accidents n (.read (s.config.filePath e.file)) = none) →
        s.config.Intact d'.tree h e ∧
        ∀ k known, hashOf k = h → k.provenance ≠ "" →
          (((⟨s.config, known⟩ : Store).get k : StateM FileTree _) d'.tree).1.1 =
            .ok (some (s.config.filePath e.file))) := by
  have hindex : d'.tree.find s.config.indexPath = d.tree.find s.config.indexPath ∧
      s.config.stored? d'.tree = s.config.stored? d.tree := by
    rcases make_alters hapart hmake with hsame | ⟨t₁, htouch, halters⟩
    · rw [hsame]
      exact ⟨rfl, rfl⟩
    · refine hc.index_of_alters htouch ?_ halters
      rintro name node hname ⟨entries, hstored, htemp | ⟨h, howns, -⟩⟩
      · obtain ⟨name', hname', hlasting⟩ := hc
        exact hlasting (hname.unique hname' ▸ htemp)
      · exact ((hapart entries hstored).own h name howns).2 hname
  refine ⟨hindex.1, fun known => ?_, fun entries h e hstored hget hintact => ⟨?_, ?_⟩⟩
  · rw [refresh_known, refresh_known, hindex.2]
  · rintro rfl
    refine (make_read hapart hmake hc hstored hget hintact).imp_right ?_
    rintro ⟨t₁, node, -, rfl, hfind⟩
    exact hfind
  · intro hclear hreadable
    have hkept : s.config.Intact d'.tree h e := by
      refine (make_read hapart hmake hc hstored hget hintact).resolve_right ?_
      rintro ⟨t₁, node, hintact₁, hspoils, -⟩
      cases change with
      | put k => exact hspoils
      | purge => exact hspoils (hreadable rfl) hintact₁
      | clear => exact hclear rfl
    refine ⟨hkept, fun k known hhash horigin => ?_⟩
    subst hhash
    exact get_of_intact hc (hindex.2.trans hstored) horigin hget hkept known

/-- A disk with a store into which one kernel was put. From then on some calls fail. -/
def oneKernel (k : Kernel) (cause : FileError) (failing : List FileCall) : Disk :=
  ⟨(Shared.run "c" ⟨emptyDir, []⟩ (Shared.firstPut k)).tree, 0,
    fun _ call => if call ∈ failing then some ⟨cause, 0⟩ else none⟩

section

variable {k : Kernel} {cause : FileError} {failing : List FileCall} {call : FileCall}

theorem accidents_oneKernel (h : call ∈ failing) (n : ℕ) :
    (oneKernel k cause failing).accidents n call = some ⟨cause, 0⟩ := if_pos h

theorem accidents_oneKernel_of_notMem (h : call ∉ failing) (n : ℕ) :
    (oneKernel k cause failing).accidents n call = none := if_neg h

variable (cause failing) in
theorem stored?_oneKernel (hwritable : Index.Writable k.provenance) (horigin : k.provenance ≠ "") :
    let t := (oneKernel k cause failing).tree
    ∃ entries, (ofDir "c").stored? t = some entries ∧
      entries.toList = [(hashOf k, k.entry)] ∧ (ofDir "c").Intact t (hashOf k) k.entry ∧
      ∀ change : Change, ∀ entries, (ofDir "c").stored? t = some entries →
        (ofDir "c").Apart (change.touched (ofDir "c") entries) := by
  have hdir : "c".utf8ByteSize + 1 + longestFile ≤ longestPath := by decide
  have hkept := Shared.kept_firstPut ready_emptyDir hdir hwritable horigin
  obtain ⟨entries, hstored, hindexed⟩ := hkept.stored? ready_emptyDir hdir Nat.one_pos
  have hmem : ∀ p, p ∈ entries.toList ↔ p ∈ [(hashOf k, k.entry)] := by
    rintro ⟨h, e⟩
    rw [hindexed.mem_iff, Ledger.stored_add, List.mem_singleton, Prod.mk.injEq]
    by_cases hk : hashOf k = h
    · simp [hk, eq_comm]
    · simp [Ne.symm hk]
  have hlist : entries.toList = [(hashOf k, k.entry)] := List.perm_singleton.mp
    ((List.perm_ext_iff_of_nodup entries.nodup.of_map (List.nodup_singleton _)).mpr hmem)
  exact ⟨entries, hstored, hlist,
    hkept.intact ready_emptyDir hdir (by rw [Ledger.stored_add, if_pos rfl]),
    apart_of_kept ready_emptyDir hdir hkept Nat.one_pos⟩

end

/-- The disk is full when a second kernel is put. The first one is found as before. -/
theorem keeps_of_failed_put :
    let first : Kernel := ⟨.brisc, "first.rs:1", "void f();", []⟩
    let second : Kernel := ⟨.brisc, "second.rs:2", "void g();", []⟩
    let full : FileError := .other "No space left on device (os error 28)"
    let d := oneKernel first full [.createTemp "c"]
    let s : Store := ⟨ofDir "c", .empty⟩
    s.config.NamesIndex ∧
    (∀ entries, s.config.stored? d.tree = some entries →
      s.config.Apart ((Change.put second).touched s.config entries)) ∧
    ∃ s' d', (s.make (.put second) : StateM Disk _) d = ((some (.io "c" full), s'), d') ∧
      d'.tree.find s.config.indexPath = d.tree.find s.config.indexPath ∧
      ((s.get first : StateM FileTree _) d'.tree).1.1 =
        .ok (some (s.config.filePath first.entry.file)) := by
  intro first second full d s
  have hne : hashOf second ≠ hashOf first := by
    have hsource : second.source = "void g();" ∧ first.source = "void f();" := ⟨rfl, rfl⟩
    rw [hashOf, hashOf, hsource.1, hsource.2, ContentHash.ofText, ContentHash.ofText,
      Text.Utf8.bytes, Text.Utf8.bytes]
    simp only [String.reduceToList]
    decide +kernel
  have horigin : first.provenance ≠ "" ∧ second.provenance ≠ "" := by decide
  have hwritable : Index.Writable first.provenance := by decide
  clear_value first second
  obtain ⟨entries, hstored, hlist, hintact, hapart⟩ :=
    stored?_oneKernel full [.createTemp "c"] hwritable horigin.1
  have hfirst : entries.get? (hashOf first) = some first.entry := by
    rw [Table.get?, hlist, Table.lookup, if_pos rfl]
  have hsecond : entries.get? (hashOf second) = none := by
    rw [Table.get?, hlist, Table.lookup, if_neg hne.symm, Table.lookup]
  obtain ⟨s', d', hmake⟩ := put_of_createTemp (s := s) (d := d)
    (accidents_oneKernel_of_notMem (by simp)) (accidents_oneKernel_of_notMem (by simp))
    (accidents_oneKernel (by simp [s, ofDir])) hstored hsecond horigin.2
  have hindex := namesIndex_ofDir "c"
  obtain ⟨hsame, -, hfiles⟩ := keeps_of_failed (s := s) (d := d) hindex (hapart _) hmake
  obtain ⟨-, hkeeps⟩ := hfiles entries _ _ hstored hfirst hintact
  have hfound := (hkeeps (by simp) (by simp)).2 first .empty rfl horigin.1
  exact ⟨hindex, hapart _, s', d', hmake, hsame, hfound⟩

/-- An input or output error of the disk. -/
def broken : FileError := .other "Input/output error (os error 5)"

/-- A disk on which the calls of some numbers fail. -/
def failingAt (t : FileTree) (numbers : List Nat) : Disk :=
  ⟨t, 0, fun n _ => if n ∈ numbers then some ⟨broken, 0⟩ else none⟩

/-- Two kernels are stored, and a directory stands in the place of the file of the second one. A
store that clears its directory fails there, and the file of the first one is lost. It is lost as
well if a store purges its directory, cannot read the file and then cannot save the index.

Where files meet, more is lost. A kernel that has the file of the index, or an index that is named
like a temporary file, alters the index when it cannot be put. A kernel that has the file of another
one takes it away. A kernel file that is named like a temporary file is neither as it was nor gone
after a clearing that failed. -/
theorem loses_of_failed :
    (let c := ofDir "c"
      let first : Kernel := ⟨.brisc, "a.rs:1", "// unary\n", []⟩
      let second : Kernel := ⟨.brisc, "b.rs:1", "// reader\n", []⟩
      let path := c.filePath first.entry.file
      let t := obstructed first second
      let d := oneKernel first broken [.read path, .createTemp "c"]
      (∃ entries s t', c.stored? t = some entries ∧
        entries.get? (hashOf first) = some first.entry ∧ c.Intact t (hashOf first) first.entry ∧
        ((⟨c, .empty⟩ : Store).make .clear : StateM FileTree _) t =
          ((some (.io (c.filePath second.entry.file) .isADirectory), s), t') ∧
        c.stored? t' = some entries ∧ ¬ c.Intact t' (hashOf first) first.entry ∧
        ((s.get first : StateM FileTree _) t').1.1 = .ok none) ∧
      ∃ entries s d', c.stored? d.tree = some entries ∧
        entries.get? (hashOf first) = some first.entry ∧
        c.Intact d.tree (hashOf first) first.entry ∧
        ((⟨c, .empty⟩ : Store).make .purge : StateM Disk _) d = ((some (.io "c" broken), s), d') ∧
        ¬ c.Intact d'.tree (hashOf first) first.entry) ∧
    (let c : StoreConfig :=
        { dir := "c", indexName := "k_brisc_c15c636231f9c328.cpp", filePrefix := "k" }
      let k : Kernel := ⟨.brisc, "a.rs:1", "", []⟩
      let l : Kernel := ⟨.brisc, "b.rs:1", "//\n", []⟩
      let d := failingAt (((⟨c, .empty⟩ : Store).put l : StateM FileTree _) emptyDir).2 [5]
      let out := ((⟨c, .empty⟩ : Store).make (.put k) : StateM Disk _) d
      out.1.1 = some (.io c.dir broken) ∧
        out.2.tree.find c.indexPath ≠ d.tree.find c.indexPath) ∧
    (let c : StoreConfig := { dir := "c", indexName := ".tmp0" }
      let k : Kernel := ⟨.brisc, "a.rs:1", "", []⟩
      let d := failingAt emptyDir [6, 7]
      let out := ((⟨c, .empty⟩ : Store).make (.put k) : StateM Disk _) d
      out.1.1 = some (.io c.indexPath broken) ∧
        out.2.tree.find c.indexPath ≠ d.tree.find c.indexPath) ∧
    (let c : StoreConfig := { dir := "c", filePrefix := "k", extension := "/../k" }
      let k : Kernel := ⟨.brisc, "a.rs:1", "", []⟩
      let l : Kernel := ⟨.brisc, "b.rs:1", "//\n", []⟩
      let base : FileTree := ⟨(emptyDir.nodes.insert
        ["c", "k_brisc_c15c636231f9c328."] .directory).insert
        ["c", "k_brisc_bdbc9ed8eeb28bb6."] .directory⟩
      let d := failingAt (((⟨c, .empty⟩ : Store).put k : StateM FileTree _) base).2 [5]
      let out := ((⟨c, .empty⟩ : Store).make (.put l) : StateM Disk _) d
      out.1.1 = some (.io c.dir broken) ∧ c.Intact d.tree (hashOf k) (c.entryOf k) ∧
        ¬ c.Intact out.2.tree (hashOf k) (c.entryOf k)) ∧
    (let c : StoreConfig := { dir := "c", filePrefix := "k", extension := "/../.tmp0" }
      let k : Kernel := ⟨.brisc, "a.rs:1", "", []⟩
      let base : FileTree := ⟨emptyDir.nodes.insert ["c", "k_brisc_c15c636231f9c328."] .directory⟩
      let d := failingAt (((⟨c, .empty⟩ : Store).put k : StateM FileTree _) base).2 [5, 6]
      let out := ((⟨c, .empty⟩ : Store).make .clear : StateM Disk _) d
      out.1.1 = some (.io c.indexPath broken) ∧ c.Intact d.tree (hashOf k) (c.entryOf k) ∧
        ¬ c.Intact out.2.tree (hashOf k) (c.entryOf k) ∧
        out.2.tree.find (c.filePath (c.entryOf k).file) ≠ .error .notFound) := by
  refine ⟨?_, by decide +kernel, by decide +kernel, by decide +kernel, by decide +kernel⟩
  intro c first second path t d
  have hne : hashOf first ≠ hashOf second := by
    have hsource : first.source = "// unary\n" ∧ second.source = "// reader\n" := ⟨rfl, rfl⟩
    rw [hashOf, hashOf, hsource.1, hsource.2, ContentHash.ofText, ContentHash.ofText,
      Text.Utf8.bytes, Text.Utf8.bytes]
    simp only [String.reduceToList]
    decide +kernel
  have horigin : first.provenance ≠ "" := by decide
  have hwritable : Index.Writable first.provenance := by decide
  have hwritable' : Index.Writable second.provenance := by decide
  clear_value first second
  refine ⟨clear_obstructed hne hwritable hwritable' horigin, ?_⟩
  obtain ⟨entries, hstored, hlist, hintact, -⟩ :=
    stored?_oneKernel broken [.read path, .createTemp "c"] hwritable horigin
  have hindex : c.indexPath ≠ path := by
    intro heq
    have hfile : path.EndsIn first.entry.file := first.isFile_entry.plain.1.endsIn_join "c"
    exact first.file_ne.1 ((heq ▸ hfile).unique (endsIn_indexPath "c"))
  obtain ⟨s, d', hmake, hlost⟩ := purge_of_unreadable (s := ⟨c, .empty⟩) (d := d)
    (namesIndex_ofDir "c") (accidents_oneKernel_of_notMem (by simp))
    (accidents_oneKernel_of_notMem (by simpa [c, ofDir] using hindex))
    (accidents_oneKernel (by simp [path])) (accidents_oneKernel_of_notMem (by simp))
    (accidents_oneKernel (by simp [c, ofDir])) hstored hlist hintact
  have hget : entries.get? (hashOf first) = some first.entry := by
    rw [Table.get?, hlist, Table.lookup, if_pos rfl]
  exact ⟨entries, s, d', hstored, hget, hintact, hmake, hlost⟩

end Store

end KernelForge

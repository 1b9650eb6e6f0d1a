import KernelForge.Proofs.Store.Ledger
import KernelForge.Proofs.Store.Programs

/-!
# The ledger of a shared directory

A directory that was empty holds the index, the lock and the files of the kernels of the ledger, and
nothing else, whatever the stores on it are asked for. What a store knew before it was asked does not
matter.
-/
namespace KernelForge

open StoreConfig FileTree

theorem Kernel.isFile_entry (k : Kernel) : IsFile k.entry.file := .kernel k.role (Store.hashOf k)

theorem Kernel.file_ne (k : Kernel) :
    k.entry.file ≠ indexFile ∧ k.entry.file ≠ lockFile ∧ k.entry.file ≠ tempFile :=
  kernelFile_ne k.role (Store.hashOf k)

theorem Kernel.entry_writable {k : Kernel} (h : Index.Writable k.provenance) : k.entry.Writable := by
  have hfile := k.isFile_entry.plain.2
  have hrole : k.role.name.utf8ByteSize ≤ 6 := by cases k.role <;> decide
  refine ⟨?_, ?_, h⟩
  · unfold longestFile at hfile
    unfold Index.Writable
    omega
  · have hshort : k.entry.role.utf8ByteSize ≤ 6 := hrole
    unfold Index.Writable
    omega

/-- Keys that are hashes are fewer than there are hashes if one of these is no key. -/
theorem Table.size_lt {ν : Type} {t : Table ContentHash ν} {spare : ContentHash}
    (h : t.get? spare = none) : t.size < 2 ^ 64 := by
  have hspare : spare ∉ t.keys := by
    intro hmem
    obtain ⟨⟨k, v⟩, hpair, rfl⟩ := List.mem_map.mp hmem
    rw [mem_toList_iff.mp hpair] at h
    cases h
  have hinjective : Function.Injective fun h : ContentHash => h.value.toNat := by
    intro a b hab
    cases a
    cases b
    exact congrArg ContentHash.mk (UInt64.toNat_inj.mp hab)
  have hnodup : ((spare :: t.keys).map fun h => h.value.toNat).Nodup :=
    (List.nodup_cons.mpr ⟨hspare, t.nodup⟩).map hinjective
  have hsub : ((spare :: t.keys).map fun h => h.value.toNat) ⊆ List.range (2 ^ 64) := by
    intro n hn
    obtain ⟨h, -, rfl⟩ := List.mem_map.mp hn
    exact List.mem_range.mpr h.value.toNat_lt
  have hlen := (List.subperm_of_subset hnodup hsub).length_le
  rw [List.length_map, List.length_cons, List.length_range, Table.keys, List.length_map] at hlen
  exact hlen

namespace Ledger

/-- The index has the entries of the kernels. -/
def Indexed (L : Ledger) (entries : Entries) : Prop :=
  ∀ h, entries.get? h = (L.stored h).map Kernel.entry

/-- The files of a directory are the lock, once a store is open, the index, and a file with the text
of each kernel. -/
structure Fills (L : Ledger) (f : Contents) : Prop where
  lock : f lockFile = if L.opened = 0 then none else some []
  index : ∃ entries, Indexes f entries ∧ L.Indexed entries
  text : ∀ h k, L.stored h = some k → f k.entry.file = some (Text.Utf8.bytes k.source)
  only : ∀ name, f name ≠ none →
    name = lockFile ∨ name = indexFile ∨ ∃ h k, L.stored h = some k ∧ k.entry.file = name

/-- Each kernel is stored under its hash, and what the index says of it can be written down. -/
structure Valid (L : Ledger) : Prop where
  hash : ∀ h k, L.stored h = some k → Store.hashOf k = h
  writable : ∀ h k, L.stored h = some k → Index.Writable k.provenance

/-- Not every hash is taken. The number of entries can be written down then. -/
def HasRoom (L : Ledger) : Prop := ∃ h, L.stored h = none

/-! ## The index -/

theorem Indexed.mem_iff {L : Ledger} {entries : Entries} (h : L.Indexed entries)
    (hash : ContentHash) (e : Entry) :
    (hash, e) ∈ entries.toList ↔ (L.stored hash).map Kernel.entry = some e := by
  rw [Table.mem_toList_iff, h]

theorem Indexed.mem_files_iff {L : Ledger} {entries : Entries} (h : L.Indexed entries)
    (name : String) : name ∈ entries.values.map Entry.file ↔
      ∃ hash k, L.stored hash = some k ∧ k.entry.file = name := by
  constructor
  · intro hmem
    obtain ⟨e, he, rfl⟩ := List.mem_map.mp hmem
    obtain ⟨⟨hash, e⟩, hpair, rfl⟩ := List.mem_map.mp he
    obtain ⟨k, hk, rfl⟩ := Option.map_eq_some_iff.mp ((h.mem_iff hash e).mp hpair)
    exact ⟨hash, k, hk, rfl⟩
  · rintro ⟨hash, k, hk, rfl⟩
    have hmem := (h.mem_iff hash k.entry).mpr (by rw [hk]; rfl)
    exact List.mem_map.mpr ⟨k.entry, List.mem_map.mpr ⟨_, hmem, rfl⟩, rfl⟩

theorem Indexed.lists {L : Ledger} {entries : Entries} (h : L.Indexed entries) :
    L.Lists (entries.toList.mergeSort fun a b => a.1.value ≤ b.1.value) := by
  refine ⟨?_, fun hash e => List.mem_mergeSort.trans (h.mem_iff hash e)⟩
  have hsorted : (entries.toList.mergeSort fun a b => a.1.value ≤ b.1.value).Pairwise
      fun a b => decide (a.1.value ≤ b.1.value) = true := by
    refine List.pairwise_mergeSort ?_ ?_ entries.toList
    · intro a b c hab hbc
      simpa using UInt64.le_trans (by simpa using hab) (by simpa using hbc)
    · intro a b
      simpa using UInt64.le_total a.1.value b.1.value
  have hdistinct : (entries.toList.mergeSort fun a b => a.1.value ≤ b.1.value).Pairwise
      fun a b => a.1 ≠ b.1 := by
    have hperm := (List.mergeSort_perm entries.toList fun a b => a.1.value ≤ b.1.value).map Prod.fst
    exact List.pairwise_map.mp (hperm.nodup_iff.mpr entries.nodup)
  refine (hsorted.and hdistinct).imp ?_
  intro a b hab
  refine UInt64.lt_of_le_of_ne (by simpa using hab.1) fun heq => hab.2 ?_
  exact congrArg ContentHash.mk heq

theorem Indexed.save {L : Ledger} (hv : L.Valid) (hroom : L.HasRoom) {entries : Entries}
    (h : L.Indexed entries) (f : Contents) :
    Indexes (Function.update f indexFile (some (Index.encode entries.toList))) entries := by
  obtain ⟨spare, hnone⟩ := hroom
  have hspare : entries.get? spare = none := by
    rw [h, hnone]
    rfl
  refine .update (Table.size_lt hspare) ?_
  rintro ⟨hash, e⟩ hmem
  obtain ⟨k, hk, rfl⟩ := Option.map_eq_some_iff.mp ((h.mem_iff hash e).mp hmem)
  exact Kernel.entry_writable (hv.writable hash k hk)

/-! ## The files -/

theorem Fills.temp {L : Ledger} {f : Contents} (h : L.Fills f) : f tempFile = none := by
  by_contra hfile
  rcases h.only tempFile hfile with heq | heq | ⟨hash, k, -, heq⟩
  · exact absurd heq (by decide)
  · exact absurd heq (by decide)
  · exact (kernelFile_ne k.role (Store.hashOf k)).2.2 heq

theorem Valid.add {L : Ledger} (hv : L.Valid) {k : Kernel} (hk : Index.Writable k.provenance) :
    (L.add k).Valid := by
  constructor
  · intro h other hother
    rw [stored_add] at hother
    split_ifs at hother with heq
    · rw [← Option.some.inj hother, heq]
    · exact hv.hash h other hother
  · intro h other hother
    rw [stored_add] at hother
    split_ifs at hother
    · rwa [← Option.some.inj hother]
    · exact hv.writable h other hother

theorem Indexed.add {L : Ledger} {entries : Entries} (h : L.Indexed entries) (k : Kernel) :
    (L.add k).Indexed (entries.insert (Store.hashOf k) k.entry) := by
  intro hash
  rw [Table.get?_insert, stored_add, h]
  by_cases heq : hash = Store.hashOf k
  · subst heq
    simp
  · simp [heq, Ne.symm heq]

/-- The files when that of a kernel was added and then its entry. -/
theorem Fills.add {L : Ledger} {f : Contents} (h : L.Fills f) {k : Kernel} (hv : (L.add k).Valid)
    (hroom : (L.add k).HasRoom) (hnew : L.stored (Store.hashOf k) = none) {entries : Entries}
    (hentries : (L.add k).Indexed entries) : (L.add k).Fills
      (Function.update (Function.update f k.entry.file (some (Text.Utf8.bytes k.source))) indexFile
        (some (Index.encode entries.toList))) := by
  refine ⟨?_, ⟨entries, hentries.save hv hroom _, hentries⟩, ?_, ?_⟩
  · rw [Function.update_of_ne (by decide), Function.update_of_ne (Ne.symm k.file_ne.2.1)]
    exact h.lock
  · intro hash other hother
    rw [Function.update_of_ne other.file_ne.1, Function.update_apply]
    have hhash := hv.hash hash other hother
    rw [stored_add] at hother
    split_ifs at hother with heq
    · rw [← Option.some.inj hother, if_pos rfl]
    · -- the file of another kernel is another one
      have hfile : other.entry.file ≠ k.entry.file := fun hfile =>
        heq (hhash.symm.trans (kernelFile_injective hfile))
      rw [if_neg hfile]
      exact h.text hash other hother
  · intro name hname
    by_cases hindex : name = indexFile
    · exact Or.inr (Or.inl hindex)
    · rw [Function.update_of_ne hindex, Function.update_apply] at hname
      split_ifs at hname with hfile
      · exact Or.inr (Or.inr ⟨Store.hashOf k, k, by rw [stored_add, if_pos rfl], hfile.symm⟩)
      · rcases h.only name hname with hlock | hindex' | ⟨hash, other, hother, hfile'⟩
        · exact Or.inl hlock
        · exact Or.inr (Or.inl hindex')
        · refine Or.inr (Or.inr ⟨hash, other, ?_, hfile'⟩)
          rw [stored_add, if_neg ?_, hother]
          rintro rfl
          rw [hnew] at hother
          cases hother

/-- The files when those of all kernels were removed and the index was emptied. -/
theorem Fills.clear {L : Ledger} {f : Contents} (h : L.Fills f) {entries : Entries}
    (hentries : L.Indexed entries) : (L.serve .clear).Fills
      (Function.update (fun name => if name ∈ entries.values.map Entry.file then none else f name)
        indexFile (some (Index.encode Table.empty.toList))) := by
  have hlock : lockFile ∉ entries.values.map Entry.file := by
    intro hmem
    obtain ⟨hash, k, -, hfile⟩ := (hentries.mem_files_iff lockFile).mp hmem
    exact k.file_ne.2.1 hfile
  refine ⟨?_, ⟨.empty, .update (by decide) (fun p hp => ?_), fun _ => rfl⟩, ?_, ?_⟩
  · rw [Function.update_of_ne (by decide), if_neg hlock]
    exact h.lock
  · cases hp
  · intro hash k hk
    cases hk
  · intro name hname
    by_cases hindex : name = indexFile
    · exact Or.inr (Or.inl hindex)
    · rw [Function.update_of_ne hindex] at hname
      split_ifs at hname with hfile
      · exact absurd rfl hname
      · rcases h.only name hname with hlock | hindex' | hkernel
        · exact Or.inl hlock
        · exact Or.inr (Or.inl hindex')
        · exact absurd ((hentries.mem_files_iff name).mpr hkernel) hfile

/-- What a store has to find after a request, if it replies as the ledger says. -/
structure Served (L : Ledger) (base : FileTree) (dir : Path) (place : List String) (t : FileTree)
    (r : Store.Request) (out : (Store.Reply × Store) × FileTree) : Prop where
  reply : L.Replies dir r out.1.1
  config : out.1.2.config = ofDir dir
  files : ∃ f, base.Filled place out.2 f ∧ (L.serve r).Fills f
  same : r ≠ .clear → L.serve r = L → out.2 = t

section

variable {base t : FileTree} {dir : Path} {place : List String} {f : Contents} {L : Ledger}
  (hb : base.Ready dir place) (hf : Filled base place t f)
  (hdir : dir.utf8ByteSize + 1 + longestFile ≤ longestPath) (hL : L.Fills f)
  (hopen : 0 < L.opened)

include hL hopen in
theorem Fills.locked : f lockFile = some [] := by
  rw [hL.lock, if_neg (by omega)]

include hb hf hdir hL hopen

theorem Fills.refresh_apply : ∃ entries, L.Indexed entries ∧ ∀ known,
    ((⟨ofDir dir, known⟩ : Store).refresh : StateM FileTree _) t = (⟨ofDir dir, entries⟩, t) := by
  obtain ⟨entries, hindex, hentries⟩ := hL.index
  exact ⟨entries, hentries, fun known =>
    hf.refresh_apply hb hdir (hL.locked hopen) hindex known⟩

omit hb hdir hopen in
theorem Served.of_same {r : Store.Request} {y : Store.Reply} {entries : Entries}
    (hreply : L.Replies dir r y) (hserve : L.serve r = L) :
    L.Served base dir place t r ((y, ⟨ofDir dir, entries⟩), t) :=
  ⟨hreply, rfl, ⟨f, hf, by rwa [hserve]⟩, fun _ _ => rfl⟩

/-- A request that is answered from the entries of the index alone. -/
theorem refresh_served (r : Store.Request) (answer : Entries → Store.Reply)
    (hserve : ∀ s : Store, (s.serve r : StateM FileTree _) =
      s.refresh >>= fun s => return (answer s.known, s))
    (hreply : ∀ entries, L.Indexed entries → L.Replies dir r (answer entries))
    (hsame : L.serve r = L) (known : Entries) :
    L.Served base dir place t r ((⟨ofDir dir, known⟩ : Store).serve r t) := by
  obtain ⟨entries, hentries, hrefresh⟩ := hL.refresh_apply hb hf hdir hopen
  rw [hserve, bind_apply, hrefresh]
  exact .of_same hf hL (hreply entries hentries) hsame

theorem contains_served (known : Entries) (k : Kernel) :
    L.Served base dir place t (.contains k) ((⟨ofDir dir, known⟩ : Store).serve (.contains k) t) := by
  refine refresh_served hb hf hdir hL hopen (.contains k)
    (fun entries => .present (entries.contains (Store.hashOf k))) (fun _ => rfl)
    (fun entries hentries => ?_) rfl known
  rw [Replies, Table.contains, hentries, Option.isSome_map]

theorem size_served (known : Entries) :
    L.Served base dir place t .size ((⟨ofDir dir, known⟩ : Store).serve .size t) := by
  refine refresh_served hb hf hdir hL hopen .size (fun entries => .count entries.size)
    (fun _ => rfl) (fun entries hentries => ⟨_, hentries.lists, ?_⟩) rfl known
  rw [List.length_mergeSort]
  rfl

theorem isEmpty_served (known : Entries) :
    L.Served base dir place t .isEmpty ((⟨ofDir dir, known⟩ : Store).serve .isEmpty t) := by
  refine refresh_served hb hf hdir hL hopen .isEmpty (fun entries => .empty entries.isEmpty)
    (fun _ => rfl) (fun entries hentries => ⟨_, hentries.lists, ?_⟩) rfl known
  rw [(List.mergeSort_perm _ _).isEmpty_eq]
  rfl

theorem entries_served (known : Entries) :
    L.Served base dir place t .entries ((⟨ofDir dir, known⟩ : Store).serve .entries t) :=
  refresh_served hb hf hdir hL hopen .entries
    (fun entries => .listed (entries.toList.mergeSort fun a b => a.1.value ≤ b.1.value))
    (fun _ => rfl) (fun _ hentries => ⟨_, hentries.lists, rfl⟩) rfl known

theorem get_served (known : Entries) (k : Kernel) :
    L.Served base dir place t (.get k) ((⟨ofDir dir, known⟩ : Store).serve (.get k) t) := by
  by_cases horigin : k.provenance = ""
  · have hserve : (⟨ofDir dir, known⟩ : Store).serve (.get k) t =
        ((.found (.error .missingProvenance), ⟨ofDir dir, known⟩), t) := by
      rw [Store.serve, bind_apply, Store.get, if_pos (by simpa using horigin)]
      rfl
    rw [hserve]
    exact .of_same hf hL (by rw [Replies, if_pos horigin]) rfl
  · obtain ⟨entries, hentries, hrefresh⟩ := hL.refresh_apply hb hf hdir hopen
    have hfound : entries.get? (Store.hashOf k) = (L.stored (Store.hashOf k)).map Kernel.entry :=
      hentries _
    have hserve : (⟨ofDir dir, known⟩ : Store).serve (.get k) t =
        ((.found (.ok ((L.stored (Store.hashOf k)).map fun k => dir.join k.entry.file)),
          ⟨ofDir dir, entries⟩), t) := by
      rw [Store.serve, bind_apply, Store.get, if_neg (by simpa using horigin), bind_apply, hrefresh]
      dsimp only
      rw [hfound]
      cases hstored : L.stored (Store.hashOf k) with
      | none => rfl
      | some first =>
        -- the file of a kernel that the index has is there
        have hfile : t.isFile (dir.join first.entry.file) = true := by
          rw [hf.isFile hb (first.isFile_entry.usable hdir)]
          exact Option.isSome_iff_exists.mpr ⟨_, hL.text _ first hstored⟩
        have hfile' : (Files.isFile ((ofDir dir).filePath first.entry.file) : StateM FileTree _) t =
            (true, t) := congrArg (·, t) hfile
        simp only [Option.map_some, bind_apply, hfile']
        rfl
    rw [hserve]
    exact .of_same hf hL (by rw [Replies, if_neg horigin]) rfl

omit hopen in
theorem addKernel_apply {entries : Entries} {k : Kernel}
    (hnew : entries.contains (Store.hashOf k) = false) :
    ∃ t', (Store.addKernel (ofDir dir) k entries : StateM FileTree _) t =
        ((.ok true, entries.insert (Store.hashOf k) k.entry), t') ∧
      Filled base place t' (Function.update
        (Function.update f k.entry.file (some (Text.Utf8.bytes k.source))) indexFile
        (some (Index.encode (entries.insert (Store.hashOf k) k.entry).toList))) := by
  obtain ⟨t₁, hreplace, hf₁⟩ := hf.replaceFile_apply hb hdir hL.temp k.isFile_entry
    (Text.Utf8.bytes k.source)
  have htemp : Function.update f k.entry.file (some (Text.Utf8.bytes k.source)) tempFile = none := by
    rw [Function.update_of_ne (Ne.symm k.file_ne.2.2), hL.temp]
  obtain ⟨t₂, hsave, hf₂⟩ := hf₁.save_apply hb hdir htemp
    (entries.insert (Store.hashOf k) k.entry)
  refine ⟨t₂, ?_, hf₂⟩
  have hreplace' : (replaceFile (ofDir dir).dir
      ((ofDir dir).filePath ((ofDir dir).fileName k.role.name (Store.hashOf k)))
      (Text.Utf8.bytes k.source) : StateM FileTree _) t = (.ok (), t₁) := hreplace
  have hsave' : ((ofDir dir).save (entries.insert (Store.hashOf k)
      ⟨(ofDir dir).fileName k.role.name (Store.hashOf k), k.role.name, k.provenance⟩) :
      StateM FileTree _) t₁ = (.ok (), t₂) := hsave
  rw [Store.addKernel, if_neg (by simp [hnew]), bind_apply, hreplace']
  simp only [bind_apply, hsave']
  rfl

theorem put_served (hv : L.Valid) (known : Entries) {k : Kernel}
    (hk : Index.Writable k.provenance) (hroom : (L.serve (.put k)).HasRoom) :
    L.Served base dir place t (.put k) ((⟨ofDir dir, known⟩ : Store).serve (.put k) t) := by
  by_cases horigin : k.provenance = ""
  · have hserve : (⟨ofDir dir, known⟩ : Store).serve (.put k) t =
        ((.added (.error .missingProvenance), ⟨ofDir dir, known⟩), t) := by
      rw [Store.serve, bind_apply, Store.put, if_pos (by simpa using horigin)]
      rfl
    rw [hserve]
    refine .of_same hf hL ?_ (serve_put_eq_self_iff.mpr fun hadds => hadds.1 horigin)
    rw [Replies, if_pos horigin]
  · obtain ⟨entries, hindex, hentries⟩ := hL.index
    have hfound : entries.contains (Store.hashOf k) = (L.stored (Store.hashOf k)).isSome := by
      rw [Table.contains, hentries, Option.isSome_map]
    have hserve : ∀ {r : Except StoreError Bool} {entries' : Entries} {t' : FileTree},
        (Store.addKernel (ofDir dir) k entries : StateM FileTree _) t = ((r, entries'), t') →
        (⟨ofDir dir, known⟩ : Store).serve (.put k) t = ((.added r, ⟨ofDir dir, entries'⟩), t') := by
      intro r entries' t' hadd
      have hchange := hf.change_apply hb hdir (hL.locked hopen) hindex known hadd
      rw [Store.serve, bind_apply, Store.put, if_neg (by simpa using horigin), hchange]
      rfl
    cases hstored : L.stored (Store.hashOf k) with
    | some first =>
      rw [hstored, Option.isSome_some] at hfound
      have hadd : (Store.addKernel (ofDir dir) k entries : StateM FileTree _) t =
          ((.ok false, entries), t) := by
        rw [Store.addKernel, if_pos hfound]
        rfl
      rw [hserve hadd]
      refine .of_same hf hL ?_ (serve_put_eq_self_iff.mpr fun hadds => ?_)
      · rw [Replies, if_neg horigin, hstored]
        rfl
      · rw [hadds.2] at hstored
        cases hstored
    | none =>
      rw [hstored, Option.isSome_none] at hfound
      obtain ⟨t', hadd, hf'⟩ := addKernel_apply hb hf hdir hL hfound
      have hadds : L.Adds k := ⟨horigin, hstored⟩
      have hafter : L.serve (.put k) = L.add k := if_pos hadds
      rw [hserve hadd]
      refine ⟨?_, rfl, ⟨_, hf', ?_⟩, fun _ hsame => absurd hadds (serve_put_eq_self_iff.mp hsame)⟩
      · change L.Replies dir (.put k) (.added (.ok true))
        rw [Replies, if_neg horigin, hstored]
        rfl
      · rw [hafter] at hroom ⊢
        exact hL.add (hv.add hk) hroom hstored (hentries.add k)

omit hopen in
/-- A file that was written for a kernel has the hash of the kernel. -/
theorem isFresh_apply {k : Kernel} {h : ContentHash} (hk : L.stored h = some k)
    (hhash : Store.hashOf k = h) :
    (Store.isFresh (dir.join k.entry.file) h : StateM FileTree _) t = (true, t) := by
  have hread : (Files.read (dir.join k.entry.file) : StateM FileTree _) t =
      (.ok (Text.Utf8.bytes k.source), t) :=
    congrArg (·, t) (hf.read hb (k.isFile_entry.usable hdir) (hL.text h k hk))
  rw [Store.isFresh, bind_apply, hread]
  dsimp only
  rw [Text.Utf8.decode_bytes, ← hhash]
  simp [Store.hashOf, pure_apply]

omit hopen in
theorem staleEntries_apply {pairs : List (ContentHash × Entry)}
    (hpairs : ∀ h e, (h, e) ∈ pairs → (L.stored h).map Kernel.entry = some e)
    (hv : ∀ h k, L.stored h = some k → Store.hashOf k = h) :
    (Store.staleEntries (ofDir dir) pairs : StateM FileTree _) t = ([], t) := by
  induction pairs with
  | nil => rfl
  | cons p rest ih =>
    obtain ⟨h, e⟩ := p
    obtain ⟨k, hk, rfl⟩ := Option.map_eq_some_iff.mp (hpairs h e (by simp))
    have hfresh : (Store.isFresh ((ofDir dir).filePath k.entry.file) h : StateM FileTree _) t =
        (true, t) := isFresh_apply hb hf hdir hL hk (hv h k hk)
    rw [Store.staleEntries, bind_apply, hfresh]
    dsimp only
    rw [bind_apply, ih fun h' e' hmem => hpairs h' e' (by simp [hmem])]
    rfl

theorem purge_served (hv : L.Valid) (known : Entries) :
    L.Served base dir place t .purge ((⟨ofDir dir, known⟩ : Store).serve .purge t) := by
  obtain ⟨entries, hindex, hentries⟩ := hL.index
  have hstale := staleEntries_apply hb hf hdir hL
    (fun h e hmem => (hentries.mem_iff h e).mp hmem) hv.hash
  have hpurge : (Store.purgeEntries (ofDir dir) entries : StateM FileTree _) t =
      ((.ok 0, entries), t) := by
    rw [Store.purgeEntries, bind_apply, hstale]
    rfl
  have hserve : (⟨ofDir dir, known⟩ : Store).serve .purge t =
      ((.purged (.ok 0), ⟨ofDir dir, entries⟩), t) := by
    rw [Store.serve, bind_apply, Store.purge,
      hf.change_apply hb hdir (hL.locked hopen) hindex known hpurge]
    rfl
  rw [hserve]
  exact .of_same hf hL rfl rfl

omit hopen in
theorem clearEntries_apply {entries : Entries} (hentries : L.Indexed entries) :
    ∃ t', (Store.clearEntries (ofDir dir) entries : StateM FileTree _) t =
        ((.ok (), .empty), t') ∧
      Filled base place t' (Function.update
        (fun name => if name ∈ entries.values.map Entry.file then none else f name) indexFile
        (some (Index.encode Table.empty.toList))) := by
  have hfiles : ∀ name ∈ entries.values.map Entry.file, IsFile name := by
    intro name hmem
    obtain ⟨hash, k, -, rfl⟩ := (hentries.mem_files_iff name).mp hmem
    exact k.isFile_entry
  obtain ⟨t₁, hremove, hf₁⟩ := hf.removeFiles_apply hb hdir hfiles
  have htemp : (if tempFile ∈ entries.values.map Entry.file then none else f tempFile) = none := by
    rw [hL.temp, ite_self]
  obtain ⟨t₂, hsave, hf₂⟩ := hf₁.save_apply hb hdir htemp .empty
  refine ⟨t₂, ?_, hf₂⟩
  rw [List.map_map] at hremove
  have hremove' : (Store.removeFiles (entries.values.map fun e => (ofDir dir).filePath e.file) :
      StateM FileTree _) t = (.ok (), t₁) := hremove
  rw [Store.clearEntries, bind_apply, hremove']
  dsimp only
  rw [bind_apply, hsave]
  rfl

theorem clear_served (known : Entries) :
    L.Served base dir place t .clear ((⟨ofDir dir, known⟩ : Store).serve .clear t) := by
  obtain ⟨entries, hindex, hentries⟩ := hL.index
  obtain ⟨t', hclear, hf'⟩ := clearEntries_apply hb hf hdir hL hentries
  have hserve : (⟨ofDir dir, known⟩ : Store).serve .clear t =
      ((.cleared (.ok ()), ⟨ofDir dir, .empty⟩), t') := by
    rw [Store.serve, bind_apply, Store.clear,
      hf.change_apply hb hdir (hL.locked hopen) hindex known hclear]
    rfl
  rw [hserve]
  exact ⟨rfl, rfl, ⟨_, hf', hL.clear hentries⟩, fun h => absurd rfl h⟩

theorem serve_served (hv : L.Valid) (known : Entries) (r : Store.Request)
    (hr : ∀ k, r = .put k → Index.Writable k.provenance) (hroom : (L.serve r).HasRoom) :
    L.Served base dir place t r ((⟨ofDir dir, known⟩ : Store).serve r t) := by
  cases r with
  | put k => exact put_served hb hf hdir hL hopen hv known (hr k rfl) hroom
  | get k => exact get_served hb hf hdir hL hopen known k
  | contains k => exact contains_served hb hf hdir hL hopen known k
  | size => exact size_served hb hf hdir hL hopen known
  | isEmpty => exact isEmpty_served hb hf hdir hL hopen known
  | entries => exact entries_served hb hf hdir hL hopen known
  | purge => exact purge_served hb hf hdir hL hopen hv known
  | clear => exact clear_served hb hf hdir hL hopen known

end

end Ledger

end KernelForge

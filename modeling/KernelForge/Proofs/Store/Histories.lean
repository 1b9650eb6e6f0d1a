import KernelForge.Proofs.Store.Outcomes
import KernelForge.Proofs.Store.Separation

/-!
# The history of a directory

Stores of one configuration are opened on a directory and asked for anything, while somebody else
removes and overwrites kernel files. Whatever happens, the index says of each hash what a store wrote
there: the name of the file that a kernel of this hash has, whose path leads to where a file may be.
-/
namespace KernelForge

open FileTree

/-- What may happen in the directory of a store. What the store knew before it was asked does not
matter. -/
inductive Incident
  | openStore
  | serve (known : Entries) (r : Store.Request)
  /-- Somebody else removes a kernel file. -/
  | remove (role : Role) (h : ContentHash)
  /-- Somebody else overwrites a kernel file. -/
  | overwrite (role : Role) (h : ContentHash) (bytes : List UInt8)

namespace Incident

def after (c : StoreConfig) (t : FileTree) : Incident → FileTree
  | openStore => ((Store.openAt c : StateM FileTree _) t).2
  | serve known r => ((⟨c, known⟩ : Store).serve r t).2
  | remove role h => (update (fun t => t.remove (c.kernelPath role h)) t).2
  | overwrite role h bytes => (update (fun t => t.write (c.kernelPath role h) bytes) t).2

def run (c : StoreConfig) (t : FileTree) (incidents : List Incident) : FileTree :=
  incidents.foldl (after c) t

end Incident

theorem Path.utf8ByteSize_le_join (dir name : Path) :
    name.utf8ByteSize ≤ (dir.join name).utf8ByteSize := by
  unfold join
  split_ifs
  · exact Nat.le_refl _
  · rw [String.utf8ByteSize_append]
    omega
  · rw [String.utf8ByteSize_append, String.utf8ByteSize_append]
    omega

namespace StoreConfig

/-- The entry is that of a kernel of the hash, whose file can be put where it should be. -/
structure Recorded (c : StoreConfig) (t : FileTree) (h : ContentHash) (e : Entry) : Prop where
  named : ∃ role : Role, e.role = role.name ∧ e.file = c.fileName role.name h
  leads : ∃ place, t.LeadsTo (c.filePath e.file) place

/-- All entries of an index are recorded. -/
def Records (c : StoreConfig) (t : FileTree) (entries : Entries) : Prop :=
  ∀ h e, entries.get? h = some e → c.Recorded t h e

/-- The directory of the store is there, and the index says what stores wrote. -/
structure Maintained (c : StoreConfig) (place : List String) (t : FileTree) : Prop where
  opens : t.Opens c.dir place
  index : ∀ bytes entries, t.read c.indexPath = .ok bytes → Index.decode bytes = .ok entries →
    c.Records t entries

section

variable {c : StoreConfig} {place : List String} {t t' : FileTree} {entries : Entries}
  {may : List String → Option FileNode → Prop}

theorem Recorded.path {h : ContentHash} {e : Entry} (hrec : c.Recorded t h e) :
    ∃ role, c.filePath e.file = c.kernelPath role h := by
  obtain ⟨role, -, hfile⟩ := hrec.named
  exact ⟨role, by rw [hfile]; rfl⟩

theorem Recorded.changes {h : ContentHash} {e : Entry} (hrec : c.Recorded t h e)
    (hch : t.Changes may t') : c.Recorded t' h e := by
  obtain ⟨place, hplace⟩ := hrec.leads
  exact ⟨hrec.named, place, hch.leadsTo_iff.mpr hplace⟩

/-- A change keeps the index as it should be if whatever can be read of it afterwards could be read
before, or is recorded. -/
theorem Maintained.changes (h : c.Maintained place t) (hch : t.Changes may t')
    (hindex : ∀ bytes entries, t'.read c.indexPath = .ok bytes → Index.decode bytes = .ok entries →
      t.read c.indexPath = .ok bytes ∨ c.Records t entries) : c.Maintained place t' := by
  refine ⟨⟨h.opens.leads.imp_right hch.locate_eq_ok_iff.mpr,
    (hch.directory_iff place).mpr h.opens.directory⟩, fun bytes entries hread hdecode => ?_⟩
  have hrecords : c.Records t entries := by
    rcases hindex bytes entries hread hdecode with hold | hnew
    · exact h.index bytes entries hold hdecode
    · exact hnew
  exact fun hash e hget => (hrecords hash e hget).changes hch

theorem Maintained.of_node? (h : c.Maintained place t) (hsame : t'.node? = t.node?) :
    c.Maintained place t' := by
  have hch : t.Changes (fun _ _ => False) t' :=
    ⟨fun p => by rw [hsame], fun p => Or.inl (by rw [hsame])⟩
  exact h.changes hch fun bytes entries hread _ =>
    Or.inl ((hch.read_eq_ok_iff fun _ _ => id).mp hread)

/-- An empty file is no index. -/
theorem Maintained.touch (h : c.Maintained place t) {p : Path} (htouch : t.touch p = .ok t') :
    c.Maintained place t' := by
  obtain ⟨q, -, -, hch⟩ := changes_of_touch htouch
  refine h.changes hch fun bytes entries hread hdecode => ?_
  obtain ⟨place', hplace, hnode⟩ := leadsTo_of_read hread
  rcases hch.node place' with heq | ⟨-, -, hempty⟩
  · exact Or.inl (read_of_node (hch.leadsTo_iff.mp hplace).locate (heq ▸ hnode))
  · rw [hnode] at hempty
    obtain rfl := FileNode.file.inj (Option.some.inj hempty)
    cases hdecode

/-- Kernel files may change in any way. -/
theorem Maintained.kernels (hc : c.Separate) (h : c.Maintained place t)
    (hch : t.Changes (fun p _ => ∃ role h, t.LeadsTo (c.kernelPath role h) p) t') :
    c.Maintained place t' := by
  refine h.changes hch fun bytes entries hread _ => Or.inl ((hch.read_eq_ok_iff ?_).mp hread)
  rintro p hp ⟨role, hash, hkernel⟩
  exact hc.index ⟨t, p, hkernel, hp⟩

/-! ## Changes -/

theorem Maintained.load (hm : c.Maintained place t)
    (h : ((c.load : StateM FileTree _) t).1 = .ok entries) : c.Records t entries := by
  rcases load_eq_ok h with rfl | ⟨bytes, hread, hdecode⟩
  · intro hash e hget
    cases hget
  · exact hm.index bytes entries hread hdecode

theorem Maintained.saved (hm : c.Maintained place t) (hrecords : c.Records t entries)
    (hsize : entries.size ≤ 2 ^ 64) (hwritable : ∀ p ∈ entries.toList, p.2.Writable)
    (h : c.Saved t entries t') : c.Maintained place t' := by
  refine hm.changes h.changes fun bytes entries' hread hdecode => Or.inr ?_
  obtain rfl := Except.ok.inj (h.read.symm.trans hread)
  rcases Index.decode_encode_le hsize hwritable with hsame | hnone
  · obtain rfl := Except.ok.inj (hsame.symm.trans hdecode)
    exact hrecords
  · obtain rfl := Except.ok.inj (hnone.symm.trans hdecode)
    intro hash e hget
    cases hget

/-- Entries that were read can be written, and so can some of them. -/
theorem writable_of_kept {kept : Entries}
    (h : ((c.load : StateM FileTree _) t).1 = .ok entries)
    (hkept : ∀ hash e, kept.get? hash = some e → entries.get? hash = some e) :
    kept.size < 2 ^ 64 ∧ ∀ p ∈ kept.toList, p.2.Writable := by
  obtain ⟨hsize, hwritable⟩ := load_writable h
  refine ⟨Nat.lt_of_le_of_lt (Table.size_le_of_keys fun hash e hget => ⟨e, hkept hash e hget⟩)
    hsize, ?_⟩
  rintro ⟨hash, e⟩ hmem
  exact hwritable (hash, e) (Table.mem_toList_iff.mpr (hkept hash e (Table.mem_toList_iff.mp hmem)))

/-- Entries that were read can be written, and so can one more. -/
theorem writable_of_insert {h : ContentHash} {e : Entry} (he : e.Writable)
    (hload : ((c.load : StateM FileTree _) t).1 = .ok entries) :
    (entries.insert h e).size ≤ 2 ^ 64 ∧ ∀ p ∈ (entries.insert h e).toList, p.2.Writable := by
  obtain ⟨hsize, hwritable⟩ := load_writable hload
  refine ⟨Nat.le_trans (entries.size_insert_le h e) hsize, ?_⟩
  rintro ⟨hash, e'⟩ hmem
  rw [Table.mem_toList_iff, Table.get?_insert] at hmem
  split_ifs at hmem
  · exact Option.some.inj hmem ▸ he
  · exact hwritable (hash, e') (Table.mem_toList_iff.mpr hmem)

/-- The entry of a kernel whose file can be put can be written. -/
theorem entryOf_writable {k : Kernel} (hk : Index.Writable k.provenance)
    (hplace : t.LeadsTo (c.filePath (c.entryOf k).file) place) : (c.entryOf k).Writable := by
  obtain ⟨husable, -⟩ := locate_eq_ok hplace.locate
  obtain ⟨-, -, hpath, -⟩ := usableParts_eq_ok husable
  have hfile := Path.utf8ByteSize_le_join c.dir (c.entryOf k).file
  have hrole : k.role.name.utf8ByteSize ≤ 6 := by cases k.role <;> decide
  have hrole' : (c.entryOf k).role.utf8ByteSize ≤ 6 := hrole
  unfold filePath at hpath
  unfold longestPath at hpath
  refine ⟨?_, ?_, hk⟩ <;>
  · unfold Index.Writable
    omega

section

variable (hc : c.Separate) (hm : c.Maintained place t)
  (hload : ((c.load : StateM FileTree _) t).1 = .ok entries)
include hc hm hload

theorem Maintained.addKernel {k : Kernel} (hk : Index.Writable k.provenance) :
    c.Maintained place ((Store.addKernel c k entries : StateM FileTree _) t).2 := by
  cases hget : entries.get? (Store.hashOf k) with
  | some e =>
    have hcontains : entries.contains (Store.hashOf k) = true := by
      rw [Table.contains, hget]
      rfl
    rw [Store.addKernel_eq, hcontains, if_pos rfl]
    exact hm
  | none =>
    rcases Store.addKernel_cases c k hget t with
      ⟨-, e, t', hadd, hsame⟩ | ⟨file, t₁, hfile, hnode, hsaving⟩
    · rw [hadd]
      exact hm.of_node? hsame
    · have hch := changes_of_update hfile.file (by simp) hnode
      have hm₁ : c.Maintained place t₁ := hm.kernels hc (hch.mono fun p node hp =>
        ⟨k.role, Store.hashOf k, hp.1 ▸ hfile⟩)
      rcases hsaving with ⟨-, e, t', hadd, hsame⟩ | ⟨t', hadd, hsaved⟩ <;> rw [hadd]
      · exact hm₁.of_node? hsame
      · obtain ⟨hsize, hwritable⟩ := writable_of_insert (entryOf_writable hk hfile) hload
        refine hm₁.saved (fun h e hget => ?_) hsize hwritable hsaved
        rw [Table.get?_insert] at hget
        split_ifs at hget with heq
        · subst heq
          obtain rfl := Option.some.inj hget
          exact ⟨⟨k.role, rfl, rfl⟩, file, hch.leadsTo_iff.mpr hfile⟩
        · exact (hm.load hload h e hget).changes hch

theorem Maintained.purgeEntries :
    c.Maintained place ((Store.purgeEntries c entries : StateM FileTree _) t).2 := by
  have hrecords := hm.load hload
  obtain ⟨t₁, hch, hout⟩ := Store.purgeEntries_cases c entries t
  have hm₁ : c.Maintained place t₁ := by
    refine hm.kernels hc (hch.mono ?_)
    rintro p node ⟨-, path, hpath, hp⟩
    obtain ⟨⟨h, e⟩, hstale, rfl⟩ := List.mem_map.mp hpath
    obtain ⟨role, hrole⟩ := (hrecords h e (mem_stale.mp hstale).1).path
    exact ⟨role, h, hrole ▸ hp⟩
  rcases hout with ⟨e, kept, t', hpurge, hsame⟩ | ⟨-, hpurge⟩ | ⟨kept, t', hpurge, hsaved, hkept, -⟩ <;>
    rw [hpurge]
  · exact hm₁.of_node? hsame
  · exact hm
  · have hsub : ∀ hash e, kept.get? hash = some e → entries.get? hash = some e := by
      intro hash e hget
      rw [hkept] at hget
      split_ifs at hget
      exact hget
    obtain ⟨hsize, hwritable⟩ := writable_of_kept hload hsub
    exact hm₁.saved (fun h e hget => (hrecords h e (hsub h e hget)).changes hch)
      (Nat.le_of_lt hsize) hwritable hsaved

theorem Maintained.clearEntries :
    c.Maintained place ((Store.clearEntries c entries : StateM FileTree _) t).2 := by
  have hch := Store.removeFiles_changes (entries.values.map fun e => c.filePath e.file) t
  have hm₁ : c.Maintained place
      ((Store.removeFiles (entries.values.map fun e => c.filePath e.file) :
        StateM FileTree _) t).2 := by
    refine hm.kernels hc (hch.mono ?_)
    rintro p node ⟨-, path, hpath, hp⟩
    obtain ⟨e, he, rfl⟩ := List.mem_map.mp hpath
    obtain ⟨⟨h, e⟩, hpair, rfl⟩ := List.mem_map.mp he
    obtain ⟨role, hrole⟩ := (hm.load hload h e (Table.mem_toList_iff.mp hpair)).path
    exact ⟨role, h, hrole ▸ hp⟩
  rw [Store.clearEntries, bind_apply]
  generalize (Store.removeFiles _ : StateM FileTree _) t = removed at hm₁ ⊢
  obtain ⟨_ | _, t₁⟩ := removed
  · exact hm₁
  · dsimp only
    rw [bind_apply]
    rcases save_cases c .empty t₁ with ⟨t', hsave, hsaved⟩ | ⟨-, e, t', hsave, hsame⟩ <;> rw [hsave]
    · refine hm₁.saved (fun h e hget => (by cases hget)) (by decide) (fun p hp => ?_) hsaved
      cases hp
    · exact hm₁.of_node? hsame

end

/-! ## Incidents -/

theorem Maintained.change (hm : c.Maintained place t) (known : Entries) {α : Type}
    {body : Entries → StateM FileTree (Except StoreError α × Entries)}
    (hbody : ∀ t₁ entries, c.Maintained place t₁ →
      ((c.load : StateM FileTree _) t₁).1 = .ok entries → c.Maintained place (body entries t₁).2) :
    c.Maintained place ((⟨c, known⟩ : Store).change body t).2 := by
  rcases Store.change_cases ⟨c, known⟩ body t with
    ⟨e, t', hchange, rfl | htouch⟩ | ⟨t₁, entries, htouch, hload, hchange⟩ <;> rw [hchange]
  · exact hm
  · exact hm.touch htouch
  · exact hbody t₁ entries (hm.touch htouch) hload

theorem Maintained.locked (hm : c.Maintained place t) :
    c.Maintained place ((Files.locked c.lockPath false c.load : StateM FileTree _) t).2 := by
  cases htouch : t.touch c.lockPath with
  | error e =>
    simp only [Files.locked, htouch]
    exact hm
  | ok t₁ =>
    rw [locked_apply false c.load htouch, load_tree]
    exact hm.touch htouch

theorem Maintained.refresh (hm : c.Maintained place t) (known : Entries) :
    c.Maintained place (((⟨c, known⟩ : Store).refresh : StateM FileTree _) t).2 := by
  have hlocked := hm.locked
  rw [Store.refresh, bind_apply]
  generalize (Files.locked c.lockPath false c.load : StateM FileTree _) t = out at hlocked ⊢
  obtain ⟨_ | _ | _, t'⟩ := out <;> exact hlocked

theorem Maintained.openAt (hm : c.Maintained place t) :
    c.Maintained place ((Store.openAt c : StateM FileTree _) t).2 := by
  have hlocked := hm.locked
  rw [Store.openAt, bind_apply, hm.opens.makeDirs_apply]
  dsimp only
  rw [bind_apply]
  generalize (Files.locked c.lockPath false c.load : StateM FileTree _) t = out at hlocked ⊢
  obtain ⟨_ | _ | _, t'⟩ := out <;> exact hlocked

theorem Maintained.get (hm : c.Maintained place t) (known : Entries) (k : Kernel) :
    c.Maintained place (((⟨c, known⟩ : Store).get k : StateM FileTree _) t).2 := by
  have hrefresh := hm.refresh known
  rw [Store.get]
  split_ifs
  · exact hm
  · rw [bind_apply]
    generalize ((⟨c, known⟩ : Store).refresh : StateM FileTree _) t = out at hrefresh ⊢
    obtain ⟨s, t'⟩ := out
    dsimp only
    cases s.known.get? (Store.hashOf k) with
    | none => exact hrefresh
    | some entry =>
      dsimp only
      rw [bind_apply]
      split <;> exact hrefresh

/-- What is done with an answer leaves the files alone. -/
theorem Maintained.bind {α β : Type} {x : StateM FileTree α} {f : α → StateM FileTree β}
    (hx : c.Maintained place (x t).2) (hf : ∀ a t, (f a t).2 = t) :
    c.Maintained place ((x >>= f) t).2 := by
  rw [bind_apply, hf]
  exact hx

theorem Maintained.serve (hc : c.Separate) (hm : c.Maintained place t) (known : Entries)
    (r : Store.Request) (hr : ∀ k, r = .put k → Index.Writable k.provenance) :
    c.Maintained place ((⟨c, known⟩ : Store).serve r t).2 := by
  have hrefresh := hm.refresh known
  cases r with
  | put k =>
    rw [Store.serve]
    refine .bind ?_ fun _ _ => rfl
    rw [Store.put]
    split_ifs
    · exact hm
    · exact hm.change known fun t₁ entries hm₁ hload => hm₁.addKernel hc hload (hr k rfl)
  | purge =>
    rw [Store.serve, Store.purge]
    exact .bind (hm.change known fun t₁ entries hm₁ hload => hm₁.purgeEntries hc hload)
      fun _ _ => rfl
  | clear =>
    rw [Store.serve, Store.clear]
    exact .bind (hm.change known fun t₁ entries hm₁ hload => hm₁.clearEntries hc hload)
      fun _ _ => rfl
  | get k =>
    rw [Store.serve]
    exact .bind (hm.get known k) fun _ _ => rfl
  | contains k =>
    rw [Store.serve, Store.contains]
    exact .bind (.bind hrefresh fun _ _ => rfl) fun _ _ => rfl
  | size =>
    rw [Store.serve, Store.size]
    exact .bind (.bind hrefresh fun _ _ => rfl) fun _ _ => rfl
  | isEmpty =>
    rw [Store.serve, Store.isEmpty]
    exact .bind (.bind hrefresh fun _ _ => rfl) fun _ _ => rfl
  | entries =>
    rw [Store.serve, Store.entries]
    exact .bind (.bind hrefresh fun _ _ => rfl) fun _ _ => rfl

/-- Somebody else may change a kernel file if that is possible. -/
theorem Maintained.update (hc : c.Separate) (hm : c.Maintained place t) (role : Role)
    (h : ContentHash) {f : FileTree → Except FileError FileTree}
    (hf : ∀ t', f t = .ok t' → ∃ q node, t.LeadsTo (c.kernelPath role h) q ∧
      node ≠ some .directory ∧ t'.node? = Function.update t.node? q node) :
    c.Maintained place (FileTree.update f t).2 := by
  rcases update_cases f t with ⟨t', hok, hupdate⟩ | ⟨e, hupdate⟩ <;> rw [hupdate]
  · obtain ⟨q, node, hq, hnode, hsame⟩ := hf t' hok
    exact hm.kernels hc ((changes_of_update hq.file hnode hsame).mono fun p _ hp =>
      ⟨role, h, hp.1 ▸ hq⟩)
  · exact hm

theorem Maintained.after (hc : c.Separate) (hm : c.Maintained place t) (incident : Incident)
    (hwritable : ∀ known k, incident = .serve known (.put k) → Index.Writable k.provenance) :
    c.Maintained place (incident.after c t) := by
  cases incident with
  | openStore => exact hm.openAt
  | serve known r => exact hm.serve hc known r fun k hk => hwritable known k (by rw [hk])
  | remove role h =>
    refine hm.update hc role h fun t' hremove => ?_
    obtain ⟨q, hq, hnode⟩ := remove_eq_ok hremove
    exact ⟨q, none, hq, by simp, hnode⟩
  | overwrite role h bytes =>
    refine hm.update hc role h fun t' hwrite => ?_
    obtain ⟨q, hq, hnode⟩ := node?_of_write hwrite
    exact ⟨q, some (.file bytes), hq, by simp, hnode⟩

/-- A directory without an index is as it should be. -/
theorem maintained_of_absent (hopens : t.Opens c.dir place)
    (hnone : t.isPresent c.indexPath = false) : c.Maintained place t := by
  refine ⟨hopens, fun bytes entries hread _ => ?_⟩
  obtain ⟨place', hplace, hnode⟩ := leadsTo_of_read hread
  rw [isPresent_eq_false_iff.mp hnone place' hplace.locate] at hnode
  cases hnode

theorem Maintained.run (hc : c.Separate) (hm : c.Maintained place t) {incidents : List Incident}
    (hwritable : ∀ known k, .serve known (.put k) ∈ incidents → Index.Writable k.provenance) :
    c.Maintained place (Incident.run c t incidents) := by
  induction incidents generalizing t with
  | nil => exact hm
  | cons incident rest ih =>
    have hafter := hm.after hc incident fun known k hk => hwritable known k (by simp [hk])
    exact ih hafter fun known k hmem => hwritable known k (List.mem_cons_of_mem _ hmem)

end

end StoreConfig

end KernelForge

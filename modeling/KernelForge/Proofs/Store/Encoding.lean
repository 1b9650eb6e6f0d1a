import KernelForge.Proofs.Store.Outcomes

/-!
# The layout of an index

An index is a version number and entries in some order, each number and each text written at a fixed
place. A reader takes such bytes from the front and nothing else, so that bytes are an index if and
only if they begin with the layout of one. From this follows what is loaded from the bytes of the
index file, whoever wrote them.
-/
namespace KernelForge

open FileTree

namespace Table

variable {κ ν : Type} [DecidableEq κ]

/-- The last pair of a key counts. -/
theorem get?_ofList (pairs : List (κ × ν)) (k : κ) :
    (ofList pairs).get? k = lookup k pairs.reverse := by
  induction pairs using List.reverseRecOn with
  | nil => rfl
  | append_singleton pairs p ih =>
    obtain ⟨l, v⟩ := p
    have hinsert : ofList (pairs ++ [(l, v)]) = (ofList pairs).insert l v := by
      simp only [ofList, List.foldl_append, List.foldl_cons, List.foldl_nil]
    rw [hinsert, get?_insert, ih, List.reverse_concat, lookup]

/-- The pairs of a table give its values in any order. -/
theorem get?_ofList_perm {pairs : List (κ × ν)} {t : Table κ ν} (h : pairs.Perm t.toList) (k : κ) :
    (ofList pairs).get? k = t.get? k := by
  have hnodup : (pairs.map Prod.fst).Nodup := (h.map Prod.fst).nodup_iff.mpr t.nodup
  have hlist : (ofList pairs).toList = pairs := toList_foldl_insert (t := empty) hnodup
  refine Option.ext fun v => ?_
  rw [← mem_toList_iff, ← mem_toList_iff, hlist, h.mem_iff]

end Table

namespace Index

/-! ## The layout -/

/-- A number in so many bytes, the lowest first. -/
def littleEndian (width n : Nat) : List UInt8 :=
  (List.range width).map fun i => UInt8.ofNat (n / 256 ^ i)

/-- A text after its length in bytes. -/
def lengthPrefixed (s : String) : List UInt8 := littleEndian 8 s.utf8ByteSize ++ Text.Utf8.bytes s

def entryLayout (p : ContentHash × Entry) : List UInt8 :=
  littleEndian 8 p.1.value.toNat ++ [p.2.file, p.2.role, p.2.provenance].flatMap lengthPrefixed

/-- The index of a version with entries in a given order, where one hash may have several. -/
def layout (found : Nat) (pairs : List (ContentHash × Entry)) : List UInt8 :=
  littleEndian 4 found ++ littleEndian 8 pairs.length ++ pairs.flatMap entryLayout

/-- Entries whose number and whose texts' lengths can be written down, as for all that a memory with
addresses of this width has room for. -/
structure Storable (pairs : List (ContentHash × Entry)) : Prop where
  count : pairs.length < 2 ^ 64
  texts : ∀ p ∈ pairs, p.2.Writable

theorem numberBytes_eq (width n : Nat) : numberBytes width n = littleEndian width n := by
  induction width generalizing n with
  | zero => rfl
  | succ width ih =>
    rw [numberBytes, ih, littleEndian, littleEndian, List.range_succ_eq_map, List.map_cons,
      List.map_map, Nat.pow_zero, Nat.div_one]
    refine congrArg (List.cons _) (List.map_congr_left fun i _ => ?_)
    rw [Function.comp_apply, Nat.div_div_eq_div_mul, Nat.pow_succ']

theorem textBytes_eq (s : String) : textBytes s = lengthPrefixed s := by
  rw [textBytes, lengthPrefixed, numberBytes_eq, Text.Utf8.length_bytes]

theorem entryBytes_eq (h : ContentHash) (e : Entry) : entryBytes h e = entryLayout (h, e) := by
  simp only [entryBytes, entryLayout, numberBytes_eq, textBytes_eq, List.flatMap_cons,
    List.flatMap_nil, List.append_nil, List.append_assoc]

theorem encode_eq (pairs : List (ContentHash × Entry)) : encode pairs = layout version pairs := by
  simp only [encode, layout, numberBytes_eq, entryBytes_eq, Prod.mk.eta]

theorem storable_perm {pairs pairs' : List (ContentHash × Entry)} (h : pairs.Perm pairs')
    (hs : Storable pairs) : Storable pairs' :=
  ⟨h.length_eq ▸ hs.count, fun p hp => hs.texts p (h.mem_iff.mpr hp)⟩

/-! ## What a reader takes -/

/-- The reader takes what was written of a value, with anything behind it, and nothing else. -/
def Exact {α : Type} (r : Reader α) (written : α → List UInt8) (fits : α → Prop) : Prop :=
  ∀ bytes a rest, r bytes = .ok (a, rest) ↔ fits a ∧ bytes = written a ++ rest

theorem bind_eq_ok_iff {α β : Type} {r : Reader α} {f : α → Reader β} {written : α → List UInt8}
    {fits : α → Prop} (hr : Exact r written fits) {bytes : List UInt8} {out : β × List UInt8} :
    (r >>= f) bytes = .ok out ↔ ∃ a rest, fits a ∧ bytes = written a ++ rest ∧ f a rest = .ok out := by
  constructor
  · intro h
    obtain ⟨a, rest, hread, hmore⟩ := bind_eq_ok h
    obtain ⟨hfits, hbytes⟩ := (hr _ _ _).mp hread
    exact ⟨a, rest, hfits, hbytes, hmore⟩
  · rintro ⟨a, rest, hfits, hbytes, hmore⟩
    rw [bind_of_ok ((hr _ _ _).mpr ⟨hfits, hbytes⟩), hmore]

theorem numberBytes_value (bytes : List UInt8) : numberBytes bytes.length (value bytes) = bytes := by
  induction bytes with
  | nil => rfl
  | cons b rest ih =>
    have hb := b.toNat_lt
    have hcons : value (b :: rest) = b.toNat + 256 * value rest := rfl
    have hdiv : (b.toNat + 256 * value rest) / 256 = value rest := by omega
    have hbyte : UInt8.ofNat (b.toNat + 256 * value rest) = b := by
      rw [← UInt8.toNat_inj, UInt8.toNat_ofNat']
      omega
    rw [List.length_cons, hcons, numberBytes, hdiv, hbyte, ih]

theorem exact_readNumber (width : Nat) :
    Exact (readNumber width) (littleEndian width) (· < 256 ^ width) := by
  intro bytes n rest
  constructor
  · intro h
    have hn := readNumber_lt h
    unfold readNumber at h
    split_ifs at h with hlen
    obtain ⟨rfl, rfl⟩ := Prod.mk.inj (Except.ok.inj h)
    refine ⟨hn, ?_⟩
    have hfront := numberBytes_value (bytes.take width)
    rw [List.length_take_of_le (by omega)] at hfront
    rw [← numberBytes_eq, hfront, List.take_append_drop]
  · rintro ⟨hn, rfl⟩
    rw [← numberBytes_eq]
    exact readNumber_numberBytes hn rest

theorem exact_readText : Exact readText lengthPrefixed Writable := by
  intro bytes s rest
  rw [readText, bind_eq_ok_iff (exact_readNumber 8)]
  constructor
  · rintro ⟨n, tail, hn, rfl, h⟩
    unfold readChars at h
    split_ifs at h with hlen
    cases hdecode : Text.Utf8.decode (tail.take n) with
    | error fault => simp [hdecode] at h
    | ok cs =>
      rw [hdecode] at h
      obtain ⟨rfl, rfl⟩ := Prod.mk.inj (Except.ok.inj h)
      have hbytes : Text.Utf8.bytes (String.ofList cs) = tail.take n := by
        rw [Text.Utf8.decode_eq_ok_iff.mp hdecode, Text.Utf8.bytes, String.toList_ofList]
      have hsize : (String.ofList cs).utf8ByteSize = n := by
        rw [← Text.Utf8.length_bytes, hbytes, List.length_take_of_le (by omega)]
      refine ⟨by rw [Writable, hsize]; exact hn, ?_⟩
      rw [lengthPrefixed, hsize, hbytes, List.append_assoc, List.take_append_drop]
  · rintro ⟨hs, rfl⟩
    refine ⟨s.utf8ByteSize, Text.Utf8.bytes s ++ rest, hs, ?_, ?_⟩
    · rw [lengthPrefixed, List.append_assoc]
    · unfold readChars
      rw [← Text.Utf8.length_bytes, if_neg (by rw [List.length_append]; omega), List.take_left,
        List.drop_left, Text.Utf8.decode_bytes]
      simp

/-- Entries are read one behind the other. -/
theorem readEntries_eq_ok_iff {count : Nat} {entries out : Entries} {bytes rest : List UInt8} :
    readEntries count entries bytes = .ok (out, rest) ↔
      ∃ pairs : List (ContentHash × Entry), pairs.length = count ∧ (∀ p ∈ pairs, p.2.Writable) ∧
        bytes = pairs.flatMap entryLayout ++ rest ∧
        out = pairs.foldl (fun t p => t.insert p.1 p.2) entries := by
  constructor
  · intro h
    induction count generalizing entries bytes with
    | zero =>
      obtain ⟨rfl, rfl⟩ := Prod.mk.inj (Except.ok.inj h)
      exact ⟨[], rfl, by simp, rfl, rfl⟩
    | succ count ih =>
      rw [readEntries] at h
      obtain ⟨hash, _, hhash, rfl, hbehind⟩ := (bind_eq_ok_iff (exact_readNumber 8)).mp h
      obtain ⟨file, _, hfile, rfl, hbehind₁⟩ := (bind_eq_ok_iff exact_readText).mp hbehind
      obtain ⟨role, _, hrole, rfl, hbehind₂⟩ := (bind_eq_ok_iff exact_readText).mp hbehind₁
      obtain ⟨provenance, _, hprovenance, rfl, hmore⟩ := (bind_eq_ok_iff exact_readText).mp hbehind₂
      obtain ⟨pairs, hlen, hwritable, rfl, rfl⟩ := ih hmore
      have hvalue : (UInt64.ofNat hash).toNat = hash := by
        rw [UInt64.toNat_ofNat']
        exact Nat.mod_eq_of_lt hhash
      refine ⟨(⟨UInt64.ofNat hash⟩, ⟨file, role, provenance⟩) :: pairs, by rw [List.length_cons, hlen],
        ?_, ?_, rfl⟩
      · rintro p (_ | ⟨_, hp⟩)
        · exact ⟨hfile, hrole, hprovenance⟩
        · exact hwritable p hp
      · simp only [List.flatMap_cons, entryLayout, hvalue, List.flatMap_nil, List.append_nil,
          List.append_assoc]
  · rintro ⟨pairs, rfl, hwritable, rfl, rfl⟩
    have hread := readEntries_encode hwritable entries rest
    simp only [entryBytes_eq, Prod.mk.eta] at hread
    exact hread

/-! ## Faults -/

/-- The fault lies in how the bytes are laid out, not in the version that they tell. -/
def Fault.OfLayout (fault : Fault) : Prop := ∀ found, fault ≠ .wrongVersion found

def FaultsOfLayout {α : Type} (r : Reader α) : Prop :=
  ∀ bytes fault, r bytes = .error fault → fault.OfLayout

section

variable {α β : Type}

theorem FaultsOfLayout.bind {r : Reader α} {f : α → Reader β} (hr : FaultsOfLayout r)
    (hf : ∀ a, FaultsOfLayout (f a)) : FaultsOfLayout (r >>= f) := by
  intro bytes fault h
  change (r bytes).bind (fun p => f p.1 p.2) = .error fault at h
  cases hread : r bytes with
  | error e =>
    rw [hread] at h
    exact Except.error.inj h ▸ hr bytes e hread
  | ok p =>
    rw [hread] at h
    exact hf p.1 p.2 fault h

theorem faultsOfLayout_readNumber (width : Nat) : FaultsOfLayout (readNumber width) := by
  intro bytes fault h
  unfold readNumber at h
  split_ifs at h
  cases h
  rintro _ ⟨⟩

theorem faultsOfLayout_readText : FaultsOfLayout readText := by
  refine (faultsOfLayout_readNumber 8).bind fun n bytes fault h => ?_
  unfold readChars at h
  split_ifs at h
  · cases h
    rintro _ ⟨⟩
  · split at h <;> cases h
    rintro _ ⟨⟩

theorem faultsOfLayout_readEntries (count : Nat) (entries : Entries) :
    FaultsOfLayout (readEntries count entries) := by
  induction count generalizing entries with
  | zero =>
    intro bytes fault h
    cases h
  | succ count ih =>
    exact (faultsOfLayout_readNumber 8).bind fun _ => faultsOfLayout_readText.bind fun _ =>
      faultsOfLayout_readText.bind fun _ => faultsOfLayout_readText.bind fun _ => ih _

end

/-! ## Decoding -/

variable {bytes : List UInt8} {entries : Entries} {found : Nat}
  {pairs : List (ContentHash × Entry)}

/-- Up to the version an index of any version is read in the same way. -/
def readVersioned : Reader (Nat × Entries) := do
  let found ← readNumber 4
  let count ← readNumber 8
  let entries ← readEntries count .empty
  return (found, entries)

theorem readIndex_eq : readIndex = readVersioned >>= fun p =>
    if p.1 = version then return p.2 else throw (.wrongVersion p.1) := by
  simp only [readIndex, readVersioned, bind_assoc, pure_bind]

theorem faultsOfLayout_readVersioned : FaultsOfLayout readVersioned :=
  (faultsOfLayout_readNumber 4).bind fun _ => (faultsOfLayout_readNumber 8).bind fun count =>
    (faultsOfLayout_readEntries count .empty).bind fun _ _ _ h => by cases h

theorem readVersioned_eq_ok_iff {rest : List UInt8} :
    readVersioned bytes = .ok ((found, entries), rest) ↔
      found < 2 ^ 32 ∧ ∃ pairs, Storable pairs ∧ bytes = layout found pairs ++ rest ∧
        entries = Table.ofList pairs := by
  rw [readVersioned, bind_eq_ok_iff (exact_readNumber 4)]
  constructor
  · rintro ⟨found', tail, hfound, rfl, hmore⟩
    obtain ⟨count, body, hcount, rfl, hbehind⟩ := (bind_eq_ok_iff (exact_readNumber 8)).mp hmore
    obtain ⟨entries', rest', hentries, hout⟩ := bind_eq_ok hbehind
    obtain ⟨pairs, rfl, hwritable, rfl, rfl⟩ := readEntries_eq_ok_iff.mp hentries
    obtain ⟨hpair, rfl⟩ := Prod.mk.inj (Except.ok.inj hout)
    obtain ⟨rfl, rfl⟩ := Prod.mk.inj hpair
    exact ⟨hfound, pairs, ⟨hcount, hwritable⟩, by simp only [layout, List.append_assoc], rfl⟩
  · rintro ⟨hfound, pairs, ⟨hcount, hwritable⟩, rfl, rfl⟩
    refine ⟨found, _, hfound, by rw [layout, List.append_assoc, List.append_assoc], ?_⟩
    refine (bind_eq_ok_iff (exact_readNumber 8)).mpr ⟨pairs.length, _, hcount, rfl, ?_⟩
    rw [bind_of_ok (readEntries_eq_ok_iff.mpr ⟨pairs, rfl, hwritable, rfl, rfl⟩)]
    rfl

/-- Bytes are an index of some version, or there is a fault in their layout. -/
theorem decode_cases (bytes : List UInt8) :
    (∃ found pairs rest, found < 2 ^ 32 ∧ Storable pairs ∧ bytes = layout found pairs ++ rest ∧
      decode bytes = if found = version then .ok (Table.ofList pairs)
        else .error (.wrongVersion found)) ∨
    ∃ fault, fault.OfLayout ∧ decode bytes = .error fault := by
  rw [decode, readIndex_eq]
  cases hread : readVersioned bytes with
  | error fault =>
    refine Or.inr ⟨fault, faultsOfLayout_readVersioned bytes fault hread, ?_⟩
    change Except.map _ ((readVersioned bytes).bind _) = _
    rw [hread]
    rfl
  | ok out =>
    obtain ⟨⟨found, entries⟩, rest⟩ := out
    obtain ⟨hfound, pairs, hpairs, hbytes, rfl⟩ := readVersioned_eq_ok_iff.mp hread
    refine Or.inl ⟨found, pairs, rest, hfound, hpairs, hbytes, ?_⟩
    rw [bind_of_ok hread]
    split_ifs <;> rfl

theorem decode_layout (hfound : found < 2 ^ 32) (hpairs : Storable pairs) (rest : List UInt8) :
    decode (layout found pairs ++ rest) =
      if found = version then .ok (Table.ofList pairs) else .error (.wrongVersion found) := by
  have hread : readVersioned (layout found pairs ++ rest) = .ok ((found, .ofList pairs), rest) :=
    readVersioned_eq_ok_iff.mpr ⟨hfound, pairs, hpairs, rfl, rfl⟩
  rw [decode, readIndex_eq, bind_of_ok hread]
  split_ifs <;> rfl

theorem decode_eq_ok_iff : decode bytes = .ok entries ↔
    ∃ pairs rest, Storable pairs ∧ bytes = layout version pairs ++ rest ∧
      entries = Table.ofList pairs := by
  constructor
  · intro h
    rcases decode_cases bytes with ⟨found, pairs, rest, -, hpairs, hbytes, hdecode⟩ | ⟨_, -, hdecode⟩
    · rw [hdecode] at h
      split_ifs at h with hversion
      exact ⟨pairs, rest, hpairs, hversion ▸ hbytes, (Except.ok.inj h).symm⟩
    · cases hdecode.symm.trans h
  · rintro ⟨pairs, rest, hpairs, rfl, rfl⟩
    rw [decode_layout (by decide) hpairs, if_pos rfl]

theorem decode_eq_wrongVersion_iff : decode bytes = .error (.wrongVersion found) ↔
    found ≠ version ∧ found < 2 ^ 32 ∧
      ∃ pairs rest, Storable pairs ∧ bytes = layout found pairs ++ rest := by
  constructor
  · intro h
    rcases decode_cases bytes with
      ⟨found', pairs, rest, hfound, hpairs, hbytes, hdecode⟩ | ⟨fault, hfault, hdecode⟩
    · rw [hdecode] at h
      split_ifs at h with hversion
      obtain rfl := Fault.wrongVersion.inj (Except.error.inj h)
      exact ⟨hversion, hfound, pairs, rest, hpairs, hbytes⟩
    · exact absurd (Except.error.inj (hdecode.symm.trans h)) (hfault found)
  · rintro ⟨hversion, hfound, pairs, rest, hpairs, rfl⟩
    rw [decode_layout hfound hpairs, if_neg hversion]

theorem storable_of_decode (h : decode bytes = .ok entries) : Storable entries.toList :=
  ⟨(writable_of_decode h).1, (writable_of_decode h).2⟩

/-- A later entry replaces an earlier one, and bytes behind the last entry do not count. -/
example : (decode (layout 1 [(⟨7⟩, ⟨"a", "b", "c"⟩), (⟨7⟩, ⟨"d", "e", "f"⟩)] ++ [0, 1])).map
    Table.toList = .ok [(⟨7⟩, ⟨"d", "e", "f"⟩)] := by decide

end Index

namespace StoreConfig

/-! ## Saving and loading -/

/-- Saves entries in a given order. -/
def saveInOrder {m : Type → Type} [Monad m] [Files m] (c : StoreConfig)
    (pairs : List (ContentHash × Entry)) : m (Except StoreError Unit) :=
  replaceFile c.dir c.indexPath (Index.encode pairs)

variable {c : StoreConfig} {t : FileTree} {bytes : List UInt8} {entries : Entries}
  {pairs : List (ContentHash × Entry)}

theorem load_of_read (h : t.read c.indexPath = .ok bytes) :
    ((c.load : StateM FileTree _) t).1 = (Index.decode bytes).mapError .corrupt := by
  obtain ⟨place, hplace, hnode⟩ := leadsTo_of_read h
  refine load_of_file ?_
  rw [hplace.find, hnode]
  rfl

theorem load_eq_ok_iff (h : t.read c.indexPath = .ok bytes) :
    ((c.load : StateM FileTree _) t).1 = .ok entries ↔ Index.decode bytes = .ok entries := by
  rw [load_of_read h]
  cases Index.decode bytes <;> simp [Except.mapError]

theorem load_eq_corrupt_iff (h : t.read c.indexPath = .ok bytes) {fault : Index.Fault} :
    ((c.load : StateM FileTree _) t).1 = .error (.corrupt fault) ↔
      Index.decode bytes = .error fault := by
  rw [load_of_read h]
  cases Index.decode bytes <;> simp [Except.mapError]

theorem load_of_absent (h : t.isPresent c.indexPath = false) :
    (c.load : StateM FileTree _) t = (.ok .empty, t) := by
  have hpresent : (Files.isPresent c.indexPath : StateM FileTree _) t =
      (t.isPresent c.indexPath, t) := rfl
  rw [load, bind_apply, hpresent, h]
  rfl

/-- Entries come back from the index file, in whatever order they were saved, and there is nothing
to come back if they could not be saved. -/
def ComesBack (c : StoreConfig) (entries : Entries) : Prop :=
  ∀ (pairs : List (ContentHash × Entry)) (t : FileTree), pairs.Perm entries.toList →
    (t.Replaces c.dir c.indexPath ∧ ∃ t' loaded,
      (c.saveInOrder pairs : StateM FileTree _) t = (.ok (), t') ∧
      t'.read c.indexPath = .ok (Index.encode pairs) ∧
      (c.load : StateM FileTree _) t' = (.ok loaded, t') ∧
      (∀ h, loaded.get? h = entries.get? h) ∧ (pairs = entries.toList → loaded = entries)) ∨
    (¬ t.Replaces c.dir c.indexPath ∧ ∃ e t',
      (c.saveInOrder pairs : StateM FileTree _) t = (.error e, t') ∧ t'.node? = t.node?)

theorem comesBack (hentries : Index.Storable entries.toList) : c.ComesBack entries := by
  intro pairs t hperm
  rcases replaceFile_cases c.dir c.indexPath (Index.encode pairs) t with
    ⟨hreplaces, place, t', hplace, hsave, hnode⟩ | hfailed
  · have hch := changes_of_update hplace.file (by simp) hnode
    have hread : t'.read c.indexPath = .ok (Index.encode pairs) := by
      refine read_of_node (hch.leadsTo_iff.mpr hplace).locate ?_
      rw [hnode, Function.update_self]
    have hdecode : Index.decode (Index.encode pairs) = .ok (Table.ofList pairs) :=
      Index.decode_eq_ok_iff.mpr ⟨pairs, [], Index.storable_perm hperm.symm hentries,
        by rw [Index.encode_eq, List.append_nil], rfl⟩
    refine Or.inl ⟨hreplaces, t', .ofList pairs, hsave, hread,
      Prod.ext ((load_eq_ok_iff hread).mpr hdecode) (load_tree c t'),
      Table.get?_ofList_perm hperm, ?_⟩
    rintro rfl
    exact entries.ofList_toList
  · exact Or.inr hfailed

/-- What is loaded, by what the index file holds. -/
structure LoadsIndex (c : StoreConfig) : Prop where
  /-- Entries are saved in one of their orders. -/
  save : ∀ entries, (c.save entries : StateM FileTree _) = c.saveInOrder entries.toList
  /-- Entries that were saved are loaded again. -/
  saved : ∀ entries : Entries, Index.Storable entries.toList → c.ComesBack entries
  /-- From any bytes there are entries loaded that come back, or they are corrupt. -/
  any : ∀ t bytes, t.read c.indexPath = .ok bytes →
    (∃ fault, (c.load : StateM FileTree _) t = (.error (.corrupt fault), t)) ∨
    ∃ entries : Entries, (c.load : StateM FileTree _) t = (.ok entries, t) ∧
      Index.Storable entries.toList ∧ c.ComesBack entries
  /-- The bytes that are not corrupt are those of an index with anything behind it. The last entry
  of a hash counts. -/
  layout : ∀ t bytes entries, t.read c.indexPath = .ok bytes →
    (((c.load : StateM FileTree _) t).1 = .ok entries ↔
      ∃ pairs rest, Index.Storable pairs ∧ bytes = Index.layout 1 pairs ++ rest ∧
        entries = Table.ofList pairs ∧ ∀ h, entries.get? h = Table.lookup h pairs.reverse)
  /-- An index of another version is corrupt. -/
  version : ∀ t bytes found, t.read c.indexPath = .ok bytes →
    (((c.load : StateM FileTree _) t).1 = .error (.corrupt (.wrongVersion found)) ↔
      found ≠ 1 ∧ found < 2 ^ 32 ∧
        ∃ pairs rest, Index.Storable pairs ∧ bytes = Index.layout found pairs ++ rest)
  absent : ∀ t, t.isPresent c.indexPath = false → (c.load : StateM FileTree _) t = (.ok .empty, t)

theorem loadsIndex (c : StoreConfig) : c.LoadsIndex where
  save _ := rfl
  saved _ := comesBack
  any t bytes hread := by
    cases hdecode : Index.decode bytes with
    | error fault =>
      exact Or.inl ⟨fault, Prod.ext ((load_eq_corrupt_iff hread).mpr hdecode) (load_tree c t)⟩
    | ok entries =>
      have hstorable := Index.storable_of_decode hdecode
      exact Or.inr ⟨entries, Prod.ext ((load_eq_ok_iff hread).mpr hdecode) (load_tree c t),
        hstorable, comesBack hstorable⟩
  layout t bytes entries hread := by
    rw [load_eq_ok_iff hread, Index.decode_eq_ok_iff]
    refine exists₂_congr fun pairs rest => and_congr_right fun _ => and_congr_right fun _ => ?_
    refine ⟨?_, And.left⟩
    rintro rfl
    exact ⟨rfl, Table.get?_ofList pairs⟩
  version t bytes found hread := by
    rw [load_eq_corrupt_iff hread, Index.decode_eq_wrongVersion_iff]
    rfl
  absent _ := load_of_absent

end StoreConfig

end KernelForge

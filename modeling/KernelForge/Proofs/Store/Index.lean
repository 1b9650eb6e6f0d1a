import KernelForge.Proofs.Text.Utf8
import KernelForge.Store.Index
import Mathlib.Data.List.Perm.Subperm

/-!
# Reading back an index

The entries of an index are read back from its bytes, each field by the reader of its kind. A number
is limited by its width, so that a text or a list of entries may not be too long for its length to be
written down. What was read is not too long.
-/
namespace KernelForge

namespace Table

variable {κ ν : Type}

theorem ext {t u : Table κ ν} (h : t.toList = u.toList) : t = u := by
  cases t
  cases u
  cases h
  rfl

variable [DecidableEq κ]

theorem put_of_not_mem {k : κ} {v : ν} {pairs : List (κ × ν)}
    (h : k ∉ pairs.map Prod.fst) : put k v pairs = pairs ++ [(k, v)] := by
  induction pairs with
  | nil => rfl
  | cons p rest ih =>
    obtain ⟨l, w⟩ := p
    simp only [List.map_cons, List.mem_cons, not_or] at h
    rw [put, if_neg (Ne.symm h.1), ih h.2, List.cons_append]

/-- New keys are added at the end, in their order. -/
theorem toList_foldl_insert {t : Table κ ν} {pairs : List (κ × ν)}
    (h : ((t.toList ++ pairs).map Prod.fst).Nodup) :
    (pairs.foldl (fun t p => t.insert p.1 p.2) t).toList = t.toList ++ pairs := by
  induction pairs generalizing t with
  | nil => simp
  | cons p rest ih =>
    have hnew : p.1 ∉ t.toList.map Prod.fst := by
      rw [List.map_append, List.nodup_append] at h
      exact fun hmem => h.2.2 _ hmem p.1 (by simp) rfl
    have hinsert : (t.insert p.1 p.2).toList = t.toList ++ [p] := put_of_not_mem hnew
    rw [List.foldl_cons, ih (by rw [hinsert]; simpa using h), hinsert, List.append_assoc,
      List.singleton_append]

theorem ofList_toList (t : Table κ ν) : ofList t.toList = t :=
  ext (toList_foldl_insert (t := empty) (by simpa [empty] using t.nodup))

theorem mem_toList_iff {t : Table κ ν} {k : κ} {v : ν} : (k, v) ∈ t.toList ↔ t.get? k = some v := by
  obtain ⟨pairs, hnodup⟩ := t
  change (k, v) ∈ pairs ↔ lookup k pairs = some v
  induction pairs with
  | nil => simp [lookup]
  | cons p rest ih =>
    obtain ⟨l, w⟩ := p
    rw [List.map_cons, List.nodup_cons] at hnodup
    by_cases h : l = k
    · subst h
      have hout : (l, v) ∉ rest := fun hmem =>
        hnodup.1 (List.mem_map.mpr ⟨(l, v), hmem, rfl⟩)
      simp [lookup, hout, eq_comm]
    · simp [lookup, h, Ne.symm h, ih hnodup.2]

theorem mem_keys_iff {t : Table κ ν} {k : κ} : k ∈ t.keys ↔ ∃ v, t.get? k = some v := by
  simp only [keys, List.mem_map, Prod.exists, mem_toList_iff, exists_and_right, exists_eq_right]

/-- A table whose keys another one has too is no larger. -/
theorem size_le_of_keys {t u : Table κ ν} (h : ∀ k v, t.get? k = some v → ∃ w, u.get? k = some w) :
    t.size ≤ u.size := by
  have hsub : t.keys ⊆ u.keys := fun k hk => by
    obtain ⟨v, hv⟩ := mem_keys_iff.mp hk
    exact mem_keys_iff.mpr (h k v hv)
  have hlen := (List.subperm_of_subset t.nodup hsub).length_le
  rwa [List.length_map, keys, List.length_map] at hlen

theorem size_insert_le (t : Table κ ν) (k : κ) (v : ν) : (t.insert k v).size ≤ t.size + 1 := by
  change (put k v t.toList).length ≤ t.toList.length + 1
  induction t.toList with
  | nil => exact Nat.le_refl 1
  | cons p rest ih =>
    rw [put]
    split_ifs
    · exact Nat.le_succ _
    · exact Nat.succ_le_succ ih

end Table

/-- A text whose length can be written down. -/
def Index.Writable (s : String) : Prop := s.utf8ByteSize < 2 ^ 64

instance (s : String) : Decidable (Index.Writable s) := inferInstanceAs (Decidable (_ < _))

structure Entry.Writable (e : Entry) : Prop where
  file : Index.Writable e.file
  role : Index.Writable e.role
  provenance : Index.Writable e.provenance

namespace Index

theorem bind_of_ok {α β : Type} {r : Reader α} {f : α → Reader β} {bytes rest : List UInt8} {a : α}
    (h : r bytes = .ok (a, rest)) : (r >>= f) bytes = f a rest := by
  change (r bytes).bind (fun p => f p.1 p.2) = f a rest
  rw [h]
  rfl

theorem length_numberBytes (width n : Nat) : (numberBytes width n).length = width := by
  induction width generalizing n with
  | zero => rfl
  | succ width ih => rw [numberBytes, List.length_cons, ih]

theorem value_numberBytes {width n : Nat} (h : n < 256 ^ width) : value (numberBytes width n) = n := by
  induction width generalizing n with
  | zero =>
    obtain rfl : n = 0 := by simpa using h
    rfl
  | succ width ih =>
    have hdiv : n / 256 < 256 ^ width := by
      rw [Nat.pow_succ] at h
      omega
    have hcons : value (numberBytes (width + 1) n) =
        (UInt8.ofNat n).toNat + 256 * value (numberBytes width (n / 256)) := rfl
    have hbyte : (UInt8.ofNat n).toNat = n % 256 := by simp
    rw [hcons, ih hdiv, hbyte]
    omega

theorem readNumber_numberBytes {width n : Nat} (h : n < 256 ^ width) (rest : List UInt8) :
    readNumber width (numberBytes width n ++ rest) = .ok (n, rest) := by
  have hlen := length_numberBytes width n
  unfold readNumber
  rw [if_neg (by rw [List.length_append, hlen]; omega), List.take_left' hlen,
    List.drop_left' hlen, value_numberBytes h]

theorem readText_textBytes {s : String} (h : Writable s) (rest : List UInt8) :
    readText (textBytes s ++ rest) = .ok (s, rest) := by
  have hlen : (Text.Utf8.bytes s).length < 256 ^ 8 := by
    rw [Text.Utf8.length_bytes]
    exact h
  unfold readText textBytes
  rw [List.append_assoc, bind_of_ok (readNumber_numberBytes hlen _)]
  unfold readChars
  rw [if_neg (by rw [List.length_append]; omega), List.take_left, List.drop_left,
    Text.Utf8.decode_bytes]
  simp

theorem readEntries_encode {pairs : List (ContentHash × Entry)}
    (h : ∀ p ∈ pairs, p.2.Writable) (entries : Entries) (rest : List UInt8) :
    readEntries pairs.length entries ((pairs.flatMap fun (h, e) => entryBytes h e) ++ rest) =
      .ok (pairs.foldl (fun t p => t.insert p.1 p.2) entries, rest) := by
  induction pairs generalizing entries with
  | nil => rfl
  | cons p more ih =>
    obtain ⟨hash, e⟩ := p
    obtain ⟨hfile, hrole, hprovenance⟩ := h (hash, e) (by simp)
    have hhash : hash.value.toNat < 256 ^ 8 := hash.value.toNat_lt
    have hvalue : (⟨UInt64.ofNat hash.value.toNat⟩ : ContentHash) = hash := by simp
    have hentry : ∀ tail, entryBytes hash e ++ tail = numberBytes 8 hash.value.toNat ++
        (textBytes e.file ++ (textBytes e.role ++ (textBytes e.provenance ++ tail))) := by
      simp [entryBytes]
    rw [List.length_cons, readEntries, List.flatMap_cons, List.append_assoc, hentry,
      bind_of_ok (readNumber_numberBytes hhash _), bind_of_ok (readText_textBytes hfile _),
      bind_of_ok (readText_textBytes hrole _), bind_of_ok (readText_textBytes hprovenance _), hvalue,
      ih fun q hq => h q (by simp [hq])]
    rfl

theorem decode_encode {t : Entries} (hsize : t.size < 2 ^ 64)
    (h : ∀ p ∈ t.toList, p.2.Writable) : decode (encode t.toList) = .ok t := by
  have hsize : t.toList.length < 256 ^ 8 := hsize
  have hread : readIndex (encode t.toList) = .ok (t, []) := by
    unfold readIndex encode
    rw [List.append_assoc, bind_of_ok (readNumber_numberBytes (by decide) _),
      bind_of_ok (readNumber_numberBytes hsize _), ← List.append_nil (List.flatMap _ _),
      bind_of_ok (readEntries_encode h .empty [])]
    rw [if_pos rfl]
    exact congrArg (fun e => Except.ok (e, [])) t.ofList_toList
  rw [decode, hread]
  rfl

/-! ## What was read can be written -/

theorem value_lt (bytes : List UInt8) : value bytes < 256 ^ bytes.length := by
  induction bytes with
  | nil => decide
  | cons b rest ih =>
    have hb := b.toNat_lt
    have hcons : value (b :: rest) = b.toNat + 256 * value rest := rfl
    rw [hcons, List.length_cons, Nat.pow_succ]
    omega

theorem bind_eq_ok {α β : Type} {r : Reader α} {f : α → Reader β} {bytes : List UInt8}
    {out : β × List UInt8} (h : (r >>= f) bytes = .ok out) :
    ∃ a rest, r bytes = .ok (a, rest) ∧ f a rest = .ok out := by
  change (r bytes).bind (fun p => f p.1 p.2) = .ok out at h
  cases hr : r bytes with
  | error e => simp [hr, Except.bind] at h
  | ok p => exact ⟨p.1, p.2, rfl, by simpa [hr, Except.bind] using h⟩

theorem readNumber_lt {width n : Nat} {bytes rest : List UInt8}
    (h : readNumber width bytes = .ok (n, rest)) : n < 256 ^ width := by
  unfold readNumber at h
  split_ifs at h with hlen
  obtain ⟨rfl, -⟩ := Prod.mk.inj (Except.ok.inj h)
  have hvalue := value_lt (bytes.take width)
  rwa [List.length_take_of_le (by omega)] at hvalue

theorem writable_of_readText {s : String} {bytes rest : List UInt8}
    (h : readText bytes = .ok (s, rest)) : Writable s := by
  obtain ⟨n, more, hn, hread⟩ := bind_eq_ok h
  have hlt := readNumber_lt hn
  unfold readChars at hread
  split_ifs at hread with hlen
  cases hdecode : Text.Utf8.decode (more.take n) with
  | error e => simp [hdecode] at hread
  | ok cs =>
    rw [hdecode] at hread
    obtain ⟨rfl, -⟩ := Prod.mk.inj (Except.ok.inj hread)
    have hbytes : Text.Utf8.bytes (String.ofList cs) = more.take n := by
      rw [Text.Utf8.decode_eq_ok_iff.mp hdecode, Text.Utf8.bytes, String.toList_ofList]
    rw [Writable, ← Text.Utf8.length_bytes, hbytes, List.length_take_of_le (by omega)]
    exact hlt

/-- As many entries as are read, or fewer. -/
theorem readEntries_spec {count : Nat} {entries out : Entries} {bytes rest : List UInt8}
    (h : readEntries count entries bytes = .ok (out, rest))
    (hentries : ∀ p ∈ entries.toList, p.2.Writable) :
    out.size ≤ entries.size + count ∧ ∀ p ∈ out.toList, p.2.Writable := by
  induction count generalizing entries bytes with
  | zero =>
    obtain ⟨rfl, -⟩ := Prod.mk.inj (Except.ok.inj h)
    exact ⟨Nat.le_refl _, hentries⟩
  | succ count ih =>
    rw [readEntries] at h
    obtain ⟨hash, _, -, h⟩ := bind_eq_ok h
    obtain ⟨file, _, hfile, h⟩ := bind_eq_ok h
    obtain ⟨role, _, hrole, h⟩ := bind_eq_ok h
    obtain ⟨provenance, _, hprovenance, h⟩ := bind_eq_ok h
    have hnew : ∀ p ∈ (entries.insert ⟨UInt64.ofNat hash⟩ ⟨file, role, provenance⟩).toList,
        p.2.Writable := by
      rintro ⟨k, e⟩ hmem
      rw [Table.mem_toList_iff, Table.get?_insert] at hmem
      split_ifs at hmem
      · obtain rfl := Option.some.inj hmem
        exact ⟨writable_of_readText hfile, writable_of_readText hrole,
          writable_of_readText hprovenance⟩
      · exact hentries (k, e) (Table.mem_toList_iff.mpr hmem)
    obtain ⟨hsize, hwritable⟩ := ih h hnew
    have hinsert := entries.size_insert_le ⟨UInt64.ofNat hash⟩ ⟨file, role, provenance⟩
    exact ⟨by omega, hwritable⟩

/-- Entries that were read can be written again. -/
theorem writable_of_decode {bytes : List UInt8} {entries : Entries}
    (h : decode bytes = .ok entries) :
    entries.size < 2 ^ 64 ∧ ∀ p ∈ entries.toList, p.2.Writable := by
  unfold decode at h
  cases hread : readIndex bytes with
  | error e => simp [hread, Except.map] at h
  | ok p =>
    obtain ⟨entries', rest⟩ := p
    obtain rfl : entries' = entries := by simpa [hread, Except.map] using h
    obtain ⟨found, _, -, hread⟩ := bind_eq_ok hread
    obtain ⟨count, _, hcount, hread⟩ := bind_eq_ok hread
    obtain ⟨entries, _, hentries, hread⟩ := bind_eq_ok hread
    have hlt := readNumber_lt hcount
    obtain ⟨hsize, hwritable⟩ := readEntries_spec hentries fun p hp => by cases hp
    split_ifs at hread
    · obtain ⟨rfl, -⟩ := Prod.mk.inj (Except.ok.inj hread)
      have hzero : (Table.empty : Entries).size = 0 := rfl
      exact ⟨by omega, hwritable⟩
    · cases hread

/-- What is read back of an index is what was written, or nothing, if there was one entry more than
can be counted. -/
theorem decode_encode_le {t : Entries} (hsize : t.size ≤ 2 ^ 64)
    (h : ∀ p ∈ t.toList, p.2.Writable) :
    decode (encode t.toList) = .ok t ∨ decode (encode t.toList) = .ok .empty := by
  rcases Nat.lt_or_eq_of_le hsize with hlt | heq
  · exact Or.inl (decode_encode hlt h)
  · have hcount : numberBytes 8 t.toList.length = numberBytes 8 0 := by
      change numberBytes 8 t.size = _
      rw [heq]
      decide
    refine Or.inr ?_
    have hread : ∃ rest, readIndex (encode t.toList) = .ok (.empty, rest) := by
      unfold readIndex encode
      rw [hcount, List.append_assoc, bind_of_ok (readNumber_numberBytes (by decide) _),
        bind_of_ok (readNumber_numberBytes (by decide) _)]
      exact ⟨_, rfl⟩
    obtain ⟨rest, hread⟩ := hread
    rw [decode, hread]
    rfl

end Index

end KernelForge

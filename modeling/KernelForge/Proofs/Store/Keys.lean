import KernelForge.Proofs.Store.Names

/-!
# Hashes and their texts

A hash is read from the numerals of its value, and its own text is the canonical one of them. It is
told by that text, alone and in the name of a file, whatever the texts around it are.
-/
namespace KernelForge.ContentHash

open Text.Hex (Numeral)

/-- A text is made of some characters, with a plus in front of them or not. -/
def Signed (s : String) (cs : List Char) : Prop := s.toList = cs ∨ s.toList = '+' :: cs

/-- A text without its plus, in small letters and sixteen places. -/
def canonical (s : String) : String := String.ofList (Text.Hex.canonical 16 (dropPlus s.toList))

/-- No numeral begins with a plus. -/
theorem dropPlus_of_numeral {cs : List Char} {n : ℕ} (h : Numeral cs n) : dropPlus cs = cs := by
  obtain ⟨-, ds, hds, -⟩ := h
  unfold dropPlus
  split
  · obtain _ | ⟨hplus, -⟩ := hds
    cases hplus.spec.1
  · rfl

theorem numeral_dropPlus_iff {s : String} {n : ℕ} :
    Numeral (dropPlus s.toList) n ↔ ∃ cs, Signed s cs ∧ Numeral cs n := by
  constructor
  · intro h
    refine ⟨_, ?_, h⟩
    unfold Signed dropPlus
    split
    · rename_i hlist
      exact Or.inr hlist
    · exact Or.inl rfl
  · rintro ⟨cs, hlist | hlist, h⟩
    · rwa [hlist, dropPlus_of_numeral h]
    · rwa [hlist]

theorem ofHex?_eq_some_iff {s : String} {h : ContentHash} :
    ofHex? s = some h ↔ Numeral (dropPlus s.toList) h.value.toNat := by
  rw [← Text.Hex.parse?_eq_some_iff, ofHex?, Option.bind_eq_some_iff]
  constructor
  · rintro ⟨n, hread, hn⟩
    split_ifs at hn with hlt
    obtain rfl := Option.some.inj hn
    rwa [UInt64.toNat_ofNat_of_lt' hlt]
  · intro hread
    refine ⟨_, hread, ?_⟩
    rw [if_pos h.value.toNat_lt, UInt64.ofNat_toNat]

theorem numeral_text (h : ContentHash) : Numeral h.text.toList h.value.toNat := by
  rw [text, String.toList_ofList]
  exact Text.Hex.numeral_fixed (by decide) h.value.toNat_lt

/-- A hash is told by its text, and by every text that is read as the hash. -/
structure ToldByText (h : ContentHash) : Prop where
  /-- The text is sixteen lowercase digits. -/
  digits : h.text.toList.length = 16 ∧ ∀ c ∈ h.text.toList, c ∈ Text.Hex.lowercase
  reads : ofHex? h.text = some h
  /-- What is read as the hash is a plus or none and a numeral of its value. -/
  reads_iff : ∀ s, ofHex? s = some h ↔ ∃ cs, Signed s cs ∧ Numeral cs h.value.toNat
  canonical : ∀ s, ofHex? s = some h → h.text = canonical s
  /-- A configuration names a file after one role and one hash. -/
  file : ∀ (c : StoreConfig) (role role' : String) (h' : ContentHash),
    c.fileName role h = c.fileName role' h' → role = role' ∧ h = h'

theorem toldByText (h : ContentHash) : h.ToldByText where
  digits := by
    refine ⟨h.length_text, fun c hc => ?_⟩
    rw [text, String.toList_ofList] at hc
    obtain ⟨d, hd, rfl⟩ := Text.Hex.mem_fixed hc
    exact Text.Hex.digit_mem hd
  reads := by
    rw [ofHex?_eq_some_iff, dropPlus_of_numeral h.numeral_text]
    exact h.numeral_text
  reads_iff _ := ofHex?_eq_some_iff.trans numeral_dropPlus_iff
  canonical s hread := by
    have hvalue := ofHex?_eq_some_iff.mp hread
    rw [ContentHash.canonical, hvalue.canonical_eq h.value.toNat_lt]
    rfl
  file _ _ _ _ heq := StoreConfig.fileName_injective heq

/-- Zeros in front do not count, and of two signs one is too many. -/
example : (ofHex? "+00000000000000000aBc").map text = some "0000000000000abc" ∧
    ofHex? "++1" = none ∧ ofHex? "10000000000000000" = none := by decide

end KernelForge.ContentHash

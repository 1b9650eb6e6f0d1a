import KernelForge.Text.Utf8
import Mathlib.Tactic.IntervalCases

/-!
# Reading back what was encoded

Every text is read back from its bytes, and no other bytes are read. A character goes through the
decoder byte by byte, and each of the four lengths of a character has its own lead bytes.
-/
namespace KernelForge.Text.Utf8

theorem toNat_ofNat {n : Nat} (h : n < 256) : (UInt8.ofNat n).toNat = n := by
  simp [Nat.mod_eq_of_lt h]

/-- The numbers of characters leave out the surrogates. -/
theorem char_valid (c : Char) : c.toNat < 0xd800 ∨ (0xdfff < c.toNat ∧ c.toNat < 0x110000) := by
  have h := c.valid
  simp only [UInt32.isValidChar, Nat.isValidChar] at h
  exact h

theorem decodeFrom_lead {index b : Nat} {done : List Char} {p : Pending} {rest : List UInt8}
    (hb : 0x80 ≤ b) (hb' : b < 256) (hp : lead? b = some p) :
    decodeFrom index done none (UInt8.ofNat b :: rest) = decodeFrom index done (some p) rest := by
  rw [decodeFrom, toNat_ofNat hb', if_neg (by omega), hp]

theorem decodeFrom_middle {index b : Nat} {done : List Char} {p : Pending} {rest : List UInt8}
    (hlow : p.low ≤ b) (hhigh : b ≤ p.high) (hb : b < 256) (hmore : 1 < p.needed) :
    decodeFrom index done (some p) (UInt8.ofNat b :: rest) =
      decodeFrom index done
        (some ⟨p.seen + 1, p.needed - 1, 0x80, 0xbf, p.value * 64 + (b - 0x80)⟩) rest := by
  rw [decodeFrom, toNat_ofNat hb, if_neg (by omega), if_neg (by omega)]

theorem decodeFrom_last {index b : Nat} {done : List Char} {p : Pending} {rest : List UInt8}
    (hlow : p.low ≤ b) (hhigh : b ≤ p.high) (hb : b < 256) (hlast : p.needed ≤ 1) :
    decodeFrom index done (some p) (UInt8.ofNat b :: rest) =
      decodeFrom (index + p.seen + 1) (Char.ofNat (p.value * 64 + (b - 0x80)) :: done) none rest := by
  rw [decodeFrom, toNat_ofNat hb, if_neg (by omega), if_pos hlast]

/-! ## Lead bytes -/

theorem lead?_two {x : Nat} (hlow : 2 ≤ x) (hhigh : x < 32) :
    lead? (x + 0xc0) = some ⟨1, 1, 0x80, 0xbf, x⟩ := by
  unfold lead?
  rw [if_neg (by omega), if_pos (by omega), Nat.add_sub_cancel]

/-- Some lead bytes restrict the byte behind them, so that no character has a longer encoding than
it needs and no surrogate has one. -/
theorem lead?_three {x : Nat} (hx : x < 16) :
    lead? (x + 0xe0) =
      some ⟨1, 2, if x = 0 then 0xa0 else 0x80, if x = 13 then 0x9f else 0xbf, x⟩ := by
  interval_cases x <;> rfl

theorem lead?_four {x : Nat} (hx : x < 5) :
    lead? (x + 0xf0) =
      some ⟨1, 3, if x = 0 then 0x90 else 0x80, if x = 4 then 0x8f else 0xbf, x⟩ := by
  interval_cases x <;> rfl

/-! ## Characters and texts -/

theorem decodeFrom_char (c : Char) (index : Nat) (done : List Char) (rest : List UInt8) :
    ∃ next, decodeFrom index done none (String.utf8EncodeChar c ++ rest) =
      decodeFrom next (c :: done) none rest := by
  have hvalid := char_valid c
  obtain ⟨n, hn⟩ : ∃ n, c.toNat = n := ⟨_, rfl⟩
  have hc : Char.ofNat n = c := by rw [← hn, Char.ofNat_toNat]
  have hval : c.val.toNat = n := hn
  rw [hn] at hvalid
  unfold String.utf8EncodeChar
  simp only [hval]
  split_ifs with h1 h2 h3
  · refine ⟨index + 1, ?_⟩
    rw [List.singleton_append, decodeFrom, toNat_ofNat (by omega), if_pos (by omega), hc]
  · refine ⟨index + 1 + 1, ?_⟩
    simp only [List.cons_append, List.nil_append]
    rw [decodeFrom_lead (by omega) (by omega) (lead?_two (by omega) (by omega)),
      decodeFrom_last (by simp only; omega) (by simp only; omega) (by omega) (Nat.le_refl 1)]
    have hchar : n / 64 % 32 * 64 + (n % 64 + 0x80 - 0x80) = n := by omega
    simp only [hchar, hc]
  · refine ⟨index + 2 + 1, ?_⟩
    simp only [List.cons_append, List.nil_append]
    rw [decodeFrom_lead (by omega) (by omega) (lead?_three (by omega)),
      decodeFrom_middle (by simp only; split_ifs <;> omega) (by simp only; split_ifs <;> omega)
        (by omega) (by simp),
      decodeFrom_last (by simp only; omega) (by simp only; omega) (by omega) (by simp)]
    have hchar : (n / 4096 % 16 * 64 + (n / 64 % 64 + 0x80 - 0x80)) * 64 +
        (n % 64 + 0x80 - 0x80) = n := by omega
    simp only [hchar, hc]
  · refine ⟨index + 3 + 1, ?_⟩
    simp only [List.cons_append, List.nil_append]
    rw [decodeFrom_lead (by omega) (by omega) (lead?_four (by omega)),
      decodeFrom_middle (by simp only; split_ifs <;> omega) (by simp only; split_ifs <;> omega)
        (by omega) (by simp),
      decodeFrom_middle (by simp only; omega) (by simp only; omega) (by omega) (by simp),
      decodeFrom_last (by simp only; omega) (by simp only; omega) (by omega) (by simp)]
    have hchar : ((n / 262144 % 8 * 64 + (n / 4096 % 64 + 0x80 - 0x80)) * 64 +
        (n / 64 % 64 + 0x80 - 0x80)) * 64 + (n % 64 + 0x80 - 0x80) = n := by omega
    simp only [hchar, hc]

theorem decodeFrom_encode (text : List Char) (index : Nat) (done : List Char) :
    decodeFrom index done none (encode text) = .ok (done.reverse ++ text) := by
  induction text generalizing index done with
  | nil => simp [encode, decodeFrom]
  | cons c rest ih =>
    have hencode : encode (c :: rest) = String.utf8EncodeChar c ++ encode rest := rfl
    obtain ⟨next, hnext⟩ := decodeFrom_char c index done (encode rest)
    rw [hencode, hnext, ih, List.reverse_cons, List.append_assoc, List.singleton_append]

theorem decode_encode (text : List Char) : decode (encode text) = .ok text :=
  decodeFrom_encode text 0 []

theorem decode_bytes (s : String) : decode (bytes s) = .ok s.toList := decode_encode s.toList

theorem length_bytes (s : String) : (bytes s).length = s.utf8ByteSize := by
  rw [← String.size_toByteArray, ← String.utf8Encode_toList, List.utf8Encode,
    List.size_toByteArray]
  rfl

/-! ## Only encodings are read -/

/-- A byte inside a character lies where the character allows it. -/
theorem decodeFrom_pending {index : Nat} {done text : List Char} {p : Pending} {bs : List UInt8}
    (h : decodeFrom index done (some p) bs = .ok text) :
    ∃ b rest, bs = b :: rest ∧ p.low ≤ b.toNat ∧ b.toNat ≤ p.high ∧
      (p.needed ≤ 1 → ∃ next, decodeFrom next
        (Char.ofNat (p.value * 64 + (b.toNat - 0x80)) :: done) none rest = .ok text) ∧
      (1 < p.needed → decodeFrom index done
        (some ⟨p.seen + 1, p.needed - 1, 0x80, 0xbf, p.value * 64 + (b.toNat - 0x80)⟩) rest =
          .ok text) := by
  cases bs with
  | nil => cases h
  | cons b rest =>
    rw [decodeFrom] at h
    split_ifs at h with hrange hlast
    · exact ⟨b, rest, rfl, by omega, by omega, fun _ => ⟨_, h⟩, fun _ => by omega⟩
    · exact ⟨b, rest, rfl, by omega, by omega, fun _ => by omega, fun _ => h⟩

theorem toNat_char {n : Nat} (h : n < 0xd800 ∨ (0xdfff < n ∧ n < 0x110000)) :
    (Char.ofNat n).val.toNat = n := by
  have hvalid : n.isValidChar := by
    rcases h with h | ⟨h, h'⟩
    · exact Or.inl h
    · exact Or.inr ⟨h, h'⟩
  rw [Char.ofNat, dif_pos hvalid]
  rfl

theorem ofNat_eq {n : Nat} {b : UInt8} (h : n = b.toNat) : UInt8.ofNat n = b := by
  rw [h, UInt8.ofNat_toNat]

/-- What a lead byte announces, and with it the bounds of the number of the character. -/
theorem lead?_eq_some {b : Nat} {p : Pending} (hb : b < 256) (h : lead? b = some p) :
    (0xc2 ≤ b ∧ b ≤ 0xdf ∧ p = ⟨1, 1, 0x80, 0xbf, b - 0xc0⟩) ∨
    (0xe0 ≤ b ∧ b ≤ 0xef ∧ ∃ low high, p = ⟨1, 2, low, high, b - 0xe0⟩ ∧ 0x80 ≤ low ∧ high ≤ 0xbf ∧
      (b = 0xe0 → low = 0xa0) ∧ (b = 0xed → high = 0x9f)) ∨
    (0xf0 ≤ b ∧ b ≤ 0xf4 ∧ ∃ low high, p = ⟨1, 3, low, high, b - 0xf0⟩ ∧ 0x80 ≤ low ∧ high ≤ 0xbf ∧
      (b = 0xf0 → low = 0x90) ∧ (b = 0xf4 → high = 0x8f)) := by
  unfold lead? at h
  split_ifs at h with h1 h2 h3 h4 h5 h6 h7 h8 <;> obtain rfl := Option.some.inj h
  · exact Or.inl ⟨by omega, h2, rfl⟩
  · subst h3
    exact Or.inr (Or.inl ⟨by omega, by omega, _, _, rfl, by omega, by omega, by omega, by omega⟩)
  · subst h4
    exact Or.inr (Or.inl ⟨by omega, by omega, _, _, rfl, by omega, by omega, by omega, by omega⟩)
  · exact Or.inr (Or.inl ⟨by omega, by omega, _, _, rfl, by omega, by omega, by omega, by omega⟩)
  · subst h6
    exact Or.inr (Or.inr ⟨by omega, by omega, _, _, rfl, by omega, by omega, by omega, by omega⟩)
  · exact Or.inr (Or.inr ⟨by omega, by omega, _, _, rfl, by omega, by omega, by omega, by omega⟩)
  · subst h8
    exact Or.inr (Or.inr ⟨by omega, by omega, _, _, rfl, by omega, by omega, by omega, by omega⟩)

/-- Bytes that are read start with the encoding of a character. -/
theorem decodeFrom_cons {index : Nat} {done text : List Char} {b : UInt8} {rest : List UInt8}
    (h : decodeFrom index done none (b :: rest) = .ok text) :
    ∃ c tail next, b :: rest = String.utf8EncodeChar c ++ tail ∧
      decodeFrom next (c :: done) none tail = .ok text := by
  have hb := b.toNat_lt
  rw [decodeFrom] at h
  split_ifs at h with hascii
  · refine ⟨_, rest, _, ?_, h⟩
    have hn := toNat_char (n := b.toNat) (by omega)
    simp only [String.utf8EncodeChar, hn]
    rw [if_pos (by omega), List.singleton_append, ofNat_eq rfl]
  · cases hlead : lead? b.toNat with
    | none => simp [hlead] at h
    | some p =>
      rw [hlead] at h
      dsimp only at h
      obtain ⟨b₁, rest₁, rfl, hlow₁, hhigh₁, hlast₁, hmore₁⟩ := decodeFrom_pending h
      have hb₁ := b₁.toNat_lt
      rcases lead?_eq_some hb hlead with
        ⟨hlow, hhigh, rfl⟩ | ⟨hlow, hhigh, low, high, rfl, hl, hh, hfirst, hlast⟩ |
        ⟨hlow, hhigh, low, high, rfl, hl, hh, hfirst, hlast⟩
      · dsimp only at hlow₁ hhigh₁
        obtain ⟨next, hnext⟩ := hlast₁ (Nat.le_refl 1)
        refine ⟨_, rest₁, next, ?_, hnext⟩
        have hn := toNat_char (n := (b.toNat - 0xc0) * 64 + (b₁.toNat - 0x80)) (by omega)
        simp only [String.utf8EncodeChar, hn]
        rw [if_neg (by omega), if_pos (by omega), List.cons_append, List.singleton_append,
          ofNat_eq (b := b) (by omega), ofNat_eq (b := b₁) (by omega)]
      · dsimp only at hlow₁ hhigh₁
        obtain ⟨b₂, rest₂, rfl, hlow₂, hhigh₂, hlast₂, -⟩ :=
          decodeFrom_pending (hmore₁ (by dsimp only; omega))
        dsimp only at hlow₂ hhigh₂
        obtain ⟨next, hnext⟩ := hlast₂ (Nat.le_refl 1)
        refine ⟨_, rest₂, next, ?_, hnext⟩
        have hn := toNat_char
          (n := ((b.toNat - 0xe0) * 64 + (b₁.toNat - 0x80)) * 64 + (b₂.toNat - 0x80)) (by omega)
        simp only [String.utf8EncodeChar, hn]
        rw [if_neg (by omega), if_neg (by omega), if_pos (by omega)]
        simp only [List.cons_append, List.nil_append]
        rw [ofNat_eq (b := b) (by omega), ofNat_eq (b := b₁) (by omega),
          ofNat_eq (b := b₂) (by omega)]
      · dsimp only at hlow₁ hhigh₁
        obtain ⟨b₂, rest₂, rfl, hlow₂, hhigh₂, -, hmore₂⟩ :=
          decodeFrom_pending (hmore₁ (by dsimp only; omega))
        dsimp only at hlow₂ hhigh₂
        obtain ⟨b₃, rest₃, rfl, hlow₃, hhigh₃, hlast₃, -⟩ :=
          decodeFrom_pending (hmore₂ (by dsimp only; omega))
        dsimp only at hlow₃ hhigh₃
        obtain ⟨next, hnext⟩ := hlast₃ (Nat.le_refl 1)
        refine ⟨_, rest₃, next, ?_, hnext⟩
        have hn := toNat_char
          (n := (((b.toNat - 0xf0) * 64 + (b₁.toNat - 0x80)) * 64 + (b₂.toNat - 0x80)) * 64 +
            (b₃.toNat - 0x80)) (by omega)
        simp only [String.utf8EncodeChar, hn]
        rw [if_neg (by omega), if_neg (by omega), if_neg (by omega)]
        simp only [List.cons_append, List.nil_append]
        rw [ofNat_eq (b := b) (by omega), ofNat_eq (b := b₁) (by omega),
          ofNat_eq (b := b₂) (by omega), ofNat_eq (b := b₃) (by omega)]

theorem decodeFrom_eq_ok {bs : List UInt8} {index : Nat} {done text : List Char}
    (h : decodeFrom index done none bs = .ok text) :
    ∃ more, text = done.reverse ++ more ∧ bs = encode more := by
  induction hn : bs.length using Nat.strong_induction_on generalizing bs index done with
  | _ n ih =>
    cases bs with
    | nil =>
      obtain rfl := Except.ok.inj h
      exact ⟨[], by simp, rfl⟩
    | cons b rest =>
      obtain ⟨c, tail, next, hbytes, htail⟩ := decodeFrom_cons h
      have hpos : 0 < (String.utf8EncodeChar c).length := by
        rw [String.length_utf8EncodeChar]
        exact c.utf8Size_pos
      have hlen := congrArg List.length hbytes
      rw [List.length_append] at hlen
      obtain ⟨more, rfl, rfl⟩ := ih tail.length (by omega) htail rfl
      refine ⟨c :: more, by simp, ?_⟩
      rw [hbytes]
      rfl

/-- The bytes that are read are the encodings. -/
theorem decode_eq_ok_iff {bs : List UInt8} {text : List Char} :
    decode bs = .ok text ↔ bs = encode text := by
  constructor
  · intro h
    obtain ⟨more, rfl, rfl⟩ := decodeFrom_eq_ok h
    rfl
  · rintro rfl
    exact decode_encode text

end KernelForge.Text.Utf8

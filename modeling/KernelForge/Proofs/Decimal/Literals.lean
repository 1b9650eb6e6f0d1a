import KernelForge.Proofs.Decimal.Rounding
import KernelForge.Literal

/-!
# Reading literals

The text of a literal is read by the rule of its kind: as an integer, as a word, or as an exact
decimal that is rounded to the kind. What is read is the literal, so that two literals of one kind
have one text only if both are no numbers.
-/
namespace KernelForge

namespace Decimal.BinaryFormat

variable {f : BinaryFormat}

/-- Reading a text as a float. What is not finite has a word of its own, and any other text stands
for the float that is nearest to its value. -/
inductive Reads (f : BinaryFormat) (suffix : String) : String → ℕ → Prop
  | nan {bits : ℕ} : f.datum bits = .nan → Reads f suffix "NAN" bits
  | infinite {bits : ℕ} (negative : Bool) : f.datum bits = .infinite negative →
    Reads f suffix (if negative then "-INFINITY" else "INFINITY") bits
  | number {bits : ℕ} {text : String} {negative : Bool} {x : ℚ} :
    signed? text.toList = some (negative, x) → f.negative bits = negative →
    f.Nearest x (f.unsigned bits) → Reads f suffix (text ++ suffix) bits

/-- The words for what is not finite. -/
def words : List String := ["NAN", "INFINITY", "-INFINITY"]

/-- No number with the suffix is one of the words. -/
def Clear (suffix : String) : Prop :=
  ∀ text ∈ words, ∀ front, text = front ++ suffix → signed? front.toList = none

theorem clear_empty : Clear "" := by
  intro text htext front hfront
  rw [String.append_empty] at hfront
  subst hfront
  simp only [words, List.mem_cons, List.not_mem_nil, or_false] at htext
  rcases htext with rfl | rfl | rfl <;> rfl

theorem clear_f : Clear "f" := by
  intro text htext front hfront
  have hmem : 'f' ∈ text.toList := by
    rw [hfront, String.toList_append]
    exact List.mem_append_right _ (by decide)
  simp only [words, List.mem_cons, List.not_mem_nil, or_false] at htext
  rcases htext with rfl | rfl | rfl <;> exact absurd hmem (by decide)

/-! ## One reading -/

/-- Bits of infinity are told by their sign. -/
theorem eq_of_infinite {bits : ℕ} {negative : Bool} (h : f.datum bits = .infinite negative) :
    f.unsigned bits = f.infinity ∧ f.negative bits = negative := by
  rw [datum_eq] at h
  split_ifs at h with hfinite hinfinite
  exact ⟨hinfinite, Datum.infinite.inj h⟩

theorem eq_of_signed {bits bits' : ℕ} (h : bits < 2 * (f.fractions * f.exponents))
    (h' : bits' < 2 * (f.fractions * f.exponents)) (hsign : f.negative bits = f.negative bits')
    (hpattern : f.unsigned bits = f.unsigned bits') : bits = bits' := by
  rw [← signed_unsigned h, ← signed_unsigned h', hsign, hpattern]

/-- A text has one reading, or stands for no number. -/
theorem Reads.unique {suffix text : String} (hclear : Clear suffix) {bits bits' : ℕ}
    (hbits : bits < 2 * (f.fractions * f.exponents))
    (hbits' : bits' < 2 * (f.fractions * f.exponents)) (h : f.Reads suffix text bits)
    (h' : f.Reads suffix text bits') :
    bits' = bits ∨ (f.datum bits = .nan ∧ f.datum bits' = .nan) := by
  have hword : ∀ {front : String} {x : Bool × ℚ}, signed? front.toList = some x →
      front ++ suffix ∉ words := fun hx hmem => by
    rw [hclear _ hmem _ rfl] at hx
    cases hx
  have hsigned : ∀ negative : Bool, (if negative then "-INFINITY" else "INFINITY") ∈ words := by decide
  generalize htext : text = s at h'
  cases h with
  | nan hnan =>
    cases h' with
    | nan hnan' => exact Or.inr ⟨hnan, hnan'⟩
    | infinite negative _ => cases negative <;> exact absurd htext (by decide)
    | number hread _ _ => exact absurd (htext ▸ by decide) (hword hread)
  | infinite negative hinfinite =>
    cases h' with
    | nan _ => cases negative <;> exact absurd htext (by decide)
    | infinite negative' hinfinite' =>
      obtain rfl : negative = negative' := by
        cases negative <;> cases negative' <;> first | rfl | exact absurd htext (by decide)
      obtain ⟨hpattern, hsign⟩ := eq_of_infinite hinfinite
      obtain ⟨hpattern', hsign'⟩ := eq_of_infinite hinfinite'
      exact Or.inl (eq_of_signed hbits' hbits (hsign'.trans hsign.symm)
        (hpattern'.trans hpattern.symm))
    | number hread _ _ => exact absurd (htext ▸ hsigned negative) (hword hread)
  | number hread hsign hnearest =>
    cases h' with
    | nan _ => exact absurd (htext ▸ by decide) (hword hread)
    | infinite negative' _ => exact absurd (htext ▸ hsigned negative') (hword hread)
    | number hread' hsign' hnearest' =>
      have hfront := congrArg String.toList htext
      rw [String.toList_append, String.toList_append, List.append_cancel_right_eq] at hfront
      rw [← hfront, hread] at hread'
      obtain ⟨rfl, rfl⟩ := Prod.mk.inj (Option.some.inj hread')
      exact Or.inl (eq_of_signed hbits' hbits (hsign'.trans hsign.symm)
        (hnearest'.unique hnearest))

/-! ## Decimals of patterns -/

/-- The decimal that is written for a pattern. -/
def decimal (f : BinaryFormat) (n : ℕ) : Scaled :=
  if n = 0 then ⟨0, 0⟩ else (f.interval n).shortest

section

variable (heven : f.fractions % 2 = 0) {n : ℕ} (hn : n < f.infinity)
include heven hn

theorem nearest_decimal : f.Nearest (f.decimal n).value n := by
  cases n with
  | zero =>
    have hzero : (f.decimal 0).value = 0 := by simp [decimal, Scaled.value]
    rw [hzero]
    exact f.nearest_zero
  | succ n =>
    rw [decimal, if_neg (Nat.succ_ne_zero n)]
    exact (holds_interval_iff heven hn).mp (f.proper_interval n).holds_shortest

/-- No decimal that rounds to the pattern has fewer digits. -/
theorem decimal_length_le {d : Scaled} (hd : f.Nearest d.value n) :
    (digitChars (f.decimal n).digits).length ≤ (digitChars d.digits).length := by
  cases n with
  | zero =>
    have hone : (digitChars (f.decimal 0).digits).length = 1 := by
      rw [decimal, if_pos rfl]
      rfl
    rw [hone]
    exact Nat.length_toDigits_pos
  | succ n =>
    rw [decimal, if_neg (Nat.succ_ne_zero n)]
    exact (f.proper_interval n).shortest_length_le ((holds_interval_iff heven hn).mpr hd)

/-- A power of ten that rounds to the pattern lies on the grid of its decimal. -/
theorem le_place_decimal (hpos : n ≠ 0) {k : ℤ} (hk : f.Nearest (10 ^ k) n) :
    k ≤ (f.decimal n).place := by
  obtain ⟨n, rfl⟩ := Nat.exists_eq_succ_of_ne_zero hpos
  rw [decimal, if_neg hpos]
  by_contra hlt
  refine (f.proper_interval n).shortest_coarsest (not_le.mp hlt) 1 ?_
  rw [Nat.cast_one, one_mul]
  exact (holds_interval_iff heven hn).mpr hk

omit heven in
theorem digits_decimal_ne_zero (heven : f.fractions % 2 = 0) (hpos : n ≠ 0) :
    (f.decimal n).digits ≠ 0 := by
  intro hzero
  have hvalue : (f.decimal n).value = 0 := by
    rw [Scaled.value, hzero, Nat.cast_zero, zero_mul]
  have hnearest := nearest_decimal heven hn
  rw [hvalue] at hnearest
  exact hpos (hnearest.unique f.nearest_zero)

end

/-- Rounding keeps the order. -/
theorem Nearest.le {x y : ℚ} {n m : ℕ} (hx : f.Nearest x n) (hy : f.Nearest y m) (h : x ≤ y) :
    n ≤ m := by
  by_contra hlt
  have hlt := f.magnitude_strictMono (not_le.mp hlt)
  have hlow := (abs_sub_upper_le_iff hlt).mp (hx.nearest m hy.le_infinity)
  have hhigh := (abs_sub_lower_le_iff hlt).mp (hy.nearest n hx.le_infinity)
  obtain rfl : x = y := by linarith
  exact hlt.ne (congrArg f.magnitude (hy.unique hx))

/-- The decimal of a pattern reaches a power of ten when the pattern reaches that of the power. -/
theorem pow_le_decimal_iff (heven : f.fractions % 2 = 0) {n m : ℕ} (hn : n < f.infinity)
    (hpos : n ≠ 0) {k : ℤ} (hm : f.Nearest (10 ^ k) m) :
    10 ^ k ≤ (f.decimal n).value ↔ m ≤ n := by
  have hnearest := nearest_decimal heven hn
  constructor
  · exact fun h => hm.le hnearest h
  · intro h
    rcases Nat.eq_or_lt_of_le h with rfl | hlt
    · -- the decimal of the pattern of the power is a multiple of the power
      have hplace := le_place_decimal heven hn hpos hm
      have hdigits : (1 : ℚ) ≤ (f.decimal m).digits := by
        exact_mod_cast Nat.pos_of_ne_zero (digits_decimal_ne_zero hn heven hpos)
      calc (10 : ℚ) ^ k ≤ 10 ^ (f.decimal m).place := zpow_le_zpow_right₀ (by norm_num) hplace
        _ ≤ (f.decimal m).value := le_mul_of_one_le_left (by positivity) hdigits
    · by_contra hgt
      exact absurd (hnearest.le hm (not_le.mp hgt).le) (not_le.mpr hlt)

end Decimal.BinaryFormat

namespace Literal

open Decimal Decimal.BinaryFormat

/-! ## Texts of floats -/

variable {f : BinaryFormat} {bits : ℕ}

theorem floatText_of_finite (hn : f.unsigned bits < f.infinity) (suffix : String) :
    floatText f bits suffix =
      String.ofList (floatLayout.write (f.negative bits) (f.decimal (f.unsigned bits))) ++ suffix := by
  rw [floatText, datum_eq, if_pos hn]
  cases f.unsigned bits with
  | zero =>
    have hzero : f.significand 0 = 0 := if_pos f.fractions_pos
    rw [hzero]
    rfl
  | succ n =>
    obtain ⟨s, hs⟩ := Nat.exists_eq_succ_of_ne_zero (f.significand_pos n).ne'
    rw [decimal, if_neg (Nat.succ_ne_zero n), interval, hs]
    rfl

theorem reads_floatText (heven : f.fractions % 2 = 0) (bits : ℕ) (suffix : String) :
    f.Reads suffix (floatText f bits suffix) bits := by
  by_cases hfinite : f.unsigned bits < f.infinity
  · rw [floatText_of_finite hfinite]
    refine .number (x := (f.decimal (f.unsigned bits)).value) ?_ rfl (nearest_decimal heven hfinite)
    rw [String.toList_ofList, Layout.signed?_write]
  · have hdatum := f.datum_eq bits
    rw [if_neg hfinite] at hdatum
    rw [floatText]
    split_ifs at hdatum
    · rw [hdatum]
      cases hsign : f.negative bits with
      | false => exact .infinite false (hsign ▸ hdatum)
      | true => exact .infinite true (hsign ▸ hdatum)
    · rw [hdatum]
      exact .nan hdatum

/-! ## Reading by the rule of a kind -/

/-- A text stands for a literal: integers are read in decimal, also where they are a bit pattern. -/
def Reads (text : String) : Literal → Prop
  | i8 v => integer? text.toList = some v.toInt
  | i16 v => integer? text.toList = some v.toInt
  | i32 v => integer? text.toList = some v.toInt
  | i64 v => integer? text.toList = some v.toInt
  | u8 v => integer? text.toList = some (v.toNat : ℤ)
  | u16 v | fp16a v | fp16b v => integer? text.toList = some (v.toNat : ℤ)
  | u32 v => integer? text.toList = some (v.toNat : ℤ)
  | u64 v => integer? text.toList = some (v.toNat : ℤ)
  | fp32 bits => BinaryFormat.single.Reads "f" text bits.toNat
  | fp64 bits => BinaryFormat.double.Reads "" text bits.toNat
  | bool v => text = if v then "true" else "false"

/-- The format, the suffix and the bits of a float. -/
def float? : Literal → Option (BinaryFormat × String × ℕ)
  | fp32 bits => some (.single, "f", bits.toNat)
  | fp64 bits => some (.double, "", bits.toNat)
  | _ => none

/-- A float that is no number. -/
def IsNaN (l : Literal) : Prop := ∃ f suffix bits, l.float? = some (f, suffix, bits) ∧
  f.datum bits = .nan

theorem single_even : BinaryFormat.single.fractions % 2 = 0 := by decide

theorem double_even : BinaryFormat.double.fractions % 2 = 0 := by decide

theorem integer?_toString_nat (n : ℕ) : integer? (toString n).toList = some (n : ℤ) := by
  rw [toList_toString_nat, integer?_digitChars]

theorem reads_text (l : Literal) : l.Reads l.text := by
  cases l with
  | i8 v | i16 v | i32 v | i64 v => exact integer?_toString v.toInt
  | u8 v | u16 v | u32 v | u64 v | fp16a v | fp16b v => exact integer?_toString_nat v.toNat
  | fp32 bits => exact reads_floatText single_even bits.toNat "f"
  | fp64 bits => exact reads_floatText double_even bits.toNat ""
  | bool v => cases v <;> rfl

/-- A text has one reading of each kind, or stands for no number. -/
theorem Reads.unique {text : String} {l l' : Literal} (hkind : l'.kind = l.kind)
    (h : l.Reads text) (h' : l'.Reads text) : l' = l ∨ (l.IsNaN ∧ l'.IsNaN) := by
  cases l <;> cases l' <;> cases hkind
  case i8 v w | i16 v w | i32 v w | i64 v w =>
    have hvalue : w.toInt = v.toInt := Option.some.inj (h'.symm.trans h)
    left
    simpa only [i8.injEq, i16.injEq, i32.injEq, i64.injEq, Int8.toInt_inj, Int16.toInt_inj,
      Int32.toInt_inj, Int64.toInt_inj] using hvalue
  case u8 v w | u16 v w | u32 v w | u64 v w | fp16a v w | fp16b v w =>
    have hvalue : w.toNat = v.toNat := Int.ofNat.inj (Option.some.inj (h'.symm.trans h))
    left
    simpa only [u8.injEq, u16.injEq, u32.injEq, u64.injEq, fp16a.injEq, fp16b.injEq,
      UInt8.toNat_inj, UInt16.toNat_inj, UInt32.toNat_inj, UInt64.toNat_inj] using hvalue
  case fp32 v w =>
    rcases BinaryFormat.Reads.unique clear_f v.toNat_lt w.toNat_lt h h' with heq | ⟨hnan, hnan'⟩
    · exact Or.inl (congrArg fp32 (UInt32.toNat_inj.mp heq))
    · exact Or.inr ⟨⟨_, _, _, rfl, hnan⟩, ⟨_, _, _, rfl, hnan'⟩⟩
  case fp64 v w =>
    rcases BinaryFormat.Reads.unique clear_empty v.toNat_lt w.toNat_lt h h' with
      heq | ⟨hnan, hnan'⟩
    · exact Or.inl (congrArg fp64 (UInt64.toNat_inj.mp heq))
    · exact Or.inr ⟨⟨_, _, _, rfl, hnan⟩, ⟨_, _, _, rfl, hnan'⟩⟩
  case bool v w =>
    have hword : (if v then "true" else "false") = if w then "true" else "false" := h.symm.trans h'
    left
    cases v <;> cases w <;> first | rfl | exact absurd hword (by decide)

/-- All that is no number has one text. -/
theorem text_of_isNaN {l : Literal} (h : l.IsNaN) : l.text = "NAN" := by
  obtain ⟨f, suffix, bits, hfloat, hnan⟩ := h
  cases l with
  | fp32 v | fp64 v =>
    obtain ⟨rfl, rfl, rfl⟩ : _ ∧ _ ∧ _ := by simpa [float?] using hfloat
    rw [text, floatText, hnan]
  | _ => cases hfloat

/-! ## Where powers of ten are written -/

/-- The patterns of the least power of ten that is written with a point, and of the least one that is
not any more. -/
theorem exists_layout_bounds {f : BinaryFormat} (hf : f = .single ∨ f = .double) :
    ∃ low high, f.Nearest (10 ^ (floatLayout.least - 1)) low ∧
      f.Nearest (10 ^ floatLayout.most) high := by
  have hnearest : ∀ {f : BinaryFormat} {n : ℕ} {place : ℤ}, f.fractions % 2 = 0 →
      n + 1 < f.infinity → (f.interval (n + 1)).contains place 1 = true →
      f.Nearest (10 ^ place) (n + 1) := fun heven hn hcontains => by
    rw [← holds_interval_iff heven hn]
    simpa using Interval.contains_iff _ _ |>.mp hcontains
  rcases hf with rfl | rfl
  · exact ⟨0x38d1b717, 0x5a0e1bca, hnearest single_even (by decide +kernel) (by decide +kernel),
      hnearest single_even (by decide +kernel) (by decide +kernel)⟩
  · exact ⟨0x3f1a36e2eb1c432d, 0x4341c37937e08000,
      hnearest double_even (by decide +kernel) (by decide +kernel),
      hnearest double_even (by decide +kernel) (by decide +kernel)⟩

/-- A float is written with a power of ten if it is too small or too large for the layout. -/
theorem mem_floatText_iff {f : BinaryFormat} (heven : f.fractions % 2 = 0) {bits low high : ℕ}
    (hn : f.unsigned bits < f.infinity) {suffix : String} (hsuffix : 'e' ∉ suffix.toList)
    (hlow : f.Nearest (10 ^ (floatLayout.least - 1)) low)
    (hhigh : f.Nearest (10 ^ floatLayout.most) high) :
    'e' ∈ (floatText f bits suffix).toList ↔
      f.unsigned bits ≠ 0 ∧ ¬ (low ≤ f.unsigned bits ∧ f.unsigned bits < high) := by
  rw [floatText_of_finite hn, String.toList_append, String.toList_ofList, List.mem_append,
    or_iff_left hsuffix, Layout.mem_write_iff]
  by_cases hzero : f.unsigned bits = 0
  · have hdigits : (f.decimal 0).digits = 0 := by rw [decimal, if_pos rfl]
    rw [hzero]
    simp [hdigits]
  · rw [pow_le_decimal_iff heven hn hzero hlow, ← not_le (a := (10 : ℚ) ^ floatLayout.most),
      pow_le_decimal_iff heven hn hzero hhigh, not_le]
    exact and_congr_left fun _ => iff_of_true (digits_decimal_ne_zero hn heven hzero) hzero

/-- A literal is what is read from its text by the rule of its kind, and the only one, but for what is
no number. So literals of one kind with one text are the same, or are both no numbers. A finite float
is written with as few digits as are read back, and with a power of ten if it is not zero, and less
than the float of 0.0001 or not less than that of 10 ^ 16. -/
theorem reads_text_iff (l l' : Literal) :
    (l'.kind = l.kind ∧ l'.Reads l.text ↔
      l' = l ∨ (l'.kind = l.kind ∧ l.IsNaN ∧ l'.IsNaN)) ∧
    (l'.kind = l.kind ∧ l'.text = l.text ↔
      l' = l ∨ (l'.kind = l.kind ∧ l.IsNaN ∧ l'.IsNaN)) ∧
    ∀ f suffix bits, l.float? = some (f, suffix, bits) → f.unsigned bits < f.infinity →
      (∃ d : Scaled, l.text = String.ofList (floatLayout.write (f.negative bits) d) ++ suffix ∧
        ∀ d' : Scaled, f.Nearest d'.value (f.unsigned bits) →
          (digitChars d.digits).length ≤ (digitChars d'.digits).length) ∧
      ∃ low high, f.Nearest (10 ^ (-4 : ℤ)) low ∧ f.Nearest (10 ^ (16 : ℤ)) high ∧
        ('e' ∈ l.text.toList ↔
          f.unsigned bits ≠ 0 ∧ ¬ (low ≤ f.unsigned bits ∧ f.unsigned bits < high)) := by
  refine ⟨⟨?_, ?_⟩, ⟨?_, ?_⟩, fun f suffix bits hfloat hn => ?_⟩
  · rintro ⟨hkind, hread⟩
    exact (l.reads_text.unique hkind hread).imp_right fun h => ⟨hkind, h⟩
  · rintro (rfl | ⟨hkind, hnan, hnan'⟩)
    · exact ⟨rfl, reads_text l'⟩
    · refine ⟨hkind, ?_⟩
      rw [text_of_isNaN hnan, ← text_of_isNaN hnan']
      exact reads_text l'
  · rintro ⟨hkind, htext⟩
    have hread := reads_text l'
    rw [htext] at hread
    exact (l.reads_text.unique hkind hread).imp_right fun h => ⟨hkind, h⟩
  · rintro (rfl | ⟨hkind, hnan, hnan'⟩)
    · exact ⟨rfl, rfl⟩
    · exact ⟨hkind, by rw [text_of_isNaN hnan, text_of_isNaN hnan']⟩
  · obtain ⟨htext, hformat, hsuffix⟩ : l.text = floatText f bits suffix ∧
        (f = .single ∨ f = .double) ∧ 'e' ∉ suffix.toList := by
      cases l with
      | fp32 v =>
        obtain ⟨rfl, rfl, rfl⟩ : _ ∧ _ ∧ _ := by simpa [float?] using hfloat
        exact ⟨rfl, Or.inl rfl, by decide⟩
      | fp64 v =>
        obtain ⟨rfl, rfl, rfl⟩ : _ ∧ _ ∧ _ := by simpa [float?] using hfloat
        exact ⟨rfl, Or.inr rfl, by decide⟩
      | _ => cases hfloat
    have heven : f.fractions % 2 = 0 := by
      rcases hformat with rfl | rfl
      · exact single_even
      · exact double_even
    obtain ⟨low, high, hlow, hhigh⟩ := exists_layout_bounds hformat
    rw [htext]
    exact ⟨⟨_, floatText_of_finite hn suffix, fun d' => decimal_length_le heven hn⟩, low, high, hlow,
      hhigh, mem_floatText_iff heven hn hsuffix hlow hhigh⟩

end Literal

end KernelForge

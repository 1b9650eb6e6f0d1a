import KernelForge.Decimal.Layout
import Mathlib.Algebra.Order.Field.Power
import Mathlib.Data.Rat.Cast.Order
import Mathlib.Tactic.FieldSimp
import Mathlib.Tactic.Positivity
import Mathlib.Tactic.Ring

/-!
# Reading decimals

A decimal text stands for an exact rational number. It has digits, which a point may divide, and a
power of ten may follow. Whatever the layout of a decimal, its text stands for its value.
-/
namespace KernelForge.Decimal

/-- The decimal number of digits, of which there has to be one at least. -/
def natural? (cs : List Char) : Option ℕ :=
  if cs ≠ [] ∧ cs.all Char.isDigit then some (Nat.ofDigitChars 10 cs 0) else none

def integer? : List Char → Option ℤ
  | '-' :: cs => (natural? cs).map fun n => -(n : ℤ)
  | cs => (natural? cs).map fun n => (n : ℤ)

/-- Digits, and behind a point more digits. -/
def places? (cs : List Char) : Option ℚ :=
  match cs.dropWhile (· != '.') with
  | [] => (natural? cs).map fun n => (n : ℚ)
  | _ :: places => do
    let whole ← natural? (cs.takeWhile (· != '.'))
    let part ← natural? places
    return whole + part / 10 ^ places.length

/-- A number that may be multiplied by a power of ten. -/
def magnitude? (cs : List Char) : Option ℚ :=
  match cs.dropWhile (· != 'e') with
  | [] => places? cs
  | _ :: power => do
    let x ← places? (cs.takeWhile (· != 'e'))
    let n ← integer? power
    return x * 10 ^ n

/-- The sign of a decimal text and the number behind it. -/
def signed? : List Char → Option (Bool × ℚ)
  | '-' :: cs => (magnitude? cs).map fun x => (true, x)
  | cs => (magnitude? cs).map fun x => (false, x)

/-! ## Digits -/

theorem isDigit_digitChars (n : ℕ) : ∀ c ∈ digitChars n, c.isDigit := fun _ hc =>
  Nat.isDigit_of_mem_toDigits (by decide) (by decide) hc

theorem digitChars_ne_nil (n : ℕ) : digitChars n ≠ [] := Nat.toDigits_ne_nil

theorem ofDigitChars_digitChars (n : ℕ) : Nat.ofDigitChars 10 (digitChars n) 0 = n :=
  Nat.ofDigitChars_toDigits (by decide) (by decide)

theorem natural?_of_digits {cs : List Char} (hne : cs ≠ []) (h : ∀ c ∈ cs, c.isDigit) :
    natural? cs = some (Nat.ofDigitChars 10 cs 0) :=
  if_pos ⟨hne, List.all_eq_true.mpr h⟩

theorem natural?_digitChars (n : ℕ) : natural? (digitChars n) = some n := by
  rw [natural?_of_digits (digitChars_ne_nil n) (isDigit_digitChars n), ofDigitChars_digitChars]

theorem ofDigitChars_append (cs ds : List Char) : Nat.ofDigitChars 10 (cs ++ ds) 0 =
    10 ^ ds.length * Nat.ofDigitChars 10 cs 0 + Nat.ofDigitChars 10 ds 0 := by
  rw [Nat.ofDigitChars_append, Nat.ofDigitChars_eq_ofDigitChars_zero]

theorem isDigit_replicate (n : ℕ) : ∀ c ∈ List.replicate n '0', c.isDigit := fun c hc => by
  obtain rfl := List.eq_of_mem_replicate hc
  decide

theorem isDigit_zero : ∀ c ∈ ['0'], c.isDigit := isDigit_replicate 1

theorem ofDigitChars_replicate (n : ℕ) : Nat.ofDigitChars 10 (List.replicate n '0') 0 = 0 := by
  rw [Nat.ofDigitChars_replicate_zero, Nat.mul_zero]

/-! ## Integers -/

theorem integer?_of_digits {cs : List Char} (h : ∀ c ∈ cs, c.isDigit) :
    integer? cs = (natural? cs).map fun n => (n : ℤ) := by
  unfold integer?
  split
  · exact absurd (h '-' (by simp)) (by decide)
  · rfl

theorem integer?_digitChars (n : ℕ) : integer? (digitChars n) = some (n : ℤ) := by
  rw [integer?_of_digits (isDigit_digitChars n), natural?_digitChars]
  rfl

theorem toList_toString_nat (n : ℕ) : (toString n).toList = digitChars n := by
  simp [digitChars, toString, Nat.repr]

theorem integer?_toString (i : ℤ) : integer? (toString i).toList = some i := by
  cases i with
  | ofNat n =>
    have h : (toString (Int.ofNat n)).toList = digitChars n := by
      simp [digitChars, toString, Int.repr, Nat.repr]
    rw [h, integer?_digitChars]
    rfl
  | negSucc n =>
    have h : (toString (Int.negSucc n)).toList = '-' :: digitChars (n + 1) := by
      simp [digitChars, toString, Int.repr, Nat.repr]
    rw [h, integer?, natural?_digitChars]
    rfl

/-! ## Points and powers -/

/-- A character that does not stand in a text divides what is put behind it. -/
theorem takeWhile_until {c : Char} {cs : List Char} (h : c ∉ cs) (ds : List Char) :
    (cs ++ c :: ds).takeWhile (· != c) = cs ∧ (cs ++ c :: ds).dropWhile (· != c) = c :: ds := by
  have hall : ∀ d ∈ cs, (d != c) = true := fun d hd => by
    simpa using fun heq : d = c => h (heq ▸ hd)
  rw [List.takeWhile_append_of_pos hall, List.dropWhile_append_of_pos hall]
  simp

theorem dropWhile_of_not_mem {c : Char} {cs : List Char} (h : c ∉ cs) :
    cs.dropWhile (· != c) = [] := by
  have hall : ∀ d ∈ cs, (d != c) = true := fun d hd => by
    simpa using fun heq : d = c => h (heq ▸ hd)
  rw [← List.append_nil cs, List.dropWhile_append_of_pos hall, List.dropWhile_nil]

theorem not_mem_of_digits {c : Char} (hc : c.isDigit = false) {cs : List Char}
    (h : ∀ d ∈ cs, d.isDigit) : c ∉ cs := fun hmem => by
  rw [h c hmem] at hc
  cases hc

theorem places?_of_digits {cs : List Char} (hne : cs ≠ []) (h : ∀ c ∈ cs, c.isDigit) :
    places? cs = some (Nat.ofDigitChars 10 cs 0 : ℚ) := by
  rw [places?, dropWhile_of_not_mem (not_mem_of_digits (by decide) h), natural?_of_digits hne h]
  rfl

/-- Where the point stands among the digits does not change them. -/
theorem places?_of_point {cs ds : List Char} (hcs : cs ≠ []) (hds : ds ≠ [])
    (hc : ∀ c ∈ cs, c.isDigit) (hd : ∀ c ∈ ds, c.isDigit) :
    places? (cs ++ '.' :: ds) = some (Nat.ofDigitChars 10 (cs ++ ds) 0 / 10 ^ ds.length : ℚ) := by
  obtain ⟨htake, hdrop⟩ := takeWhile_until (not_mem_of_digits (c := '.') (by decide) hc) ds
  rw [places?, hdrop, htake]
  simp only [natural?_of_digits hcs hc, natural?_of_digits hds hd, Option.bind_eq_bind,
    Option.bind_some, pure]
  rw [ofDigitChars_append]
  push_cast
  field_simp

theorem magnitude?_of_no_power {cs : List Char} (h : 'e' ∉ cs) : magnitude? cs = places? cs := by
  rw [magnitude?, dropWhile_of_not_mem h]

theorem magnitude?_of_power {cs : List Char} (h : 'e' ∉ cs) (n : ℤ) :
    magnitude? (cs ++ 'e' :: (toString n).toList) = (places? cs).map (· * 10 ^ n) := by
  obtain ⟨htake, hdrop⟩ := takeWhile_until h (toString n).toList
  rw [magnitude?, hdrop, htake]
  simp only [integer?_toString]
  cases places? cs <;> rfl

/-! ## Layouts -/

/-- The value of a decimal. -/
def Scaled.value (d : Scaled) : ℚ := d.digits * 10 ^ d.place

namespace Layout

section

variable {cs : List Char} (hne : cs ≠ []) (hcs : ∀ c ∈ cs, c.isDigit)
include hne hcs

theorem magnitude?_positional (point : ℤ) : magnitude? (positional cs point) =
    some ((Nat.ofDigitChars 10 cs 0 : ℚ) * 10 ^ (point - cs.length)) := by
  have hpoint : ('e' : Char) ≠ '.' := by decide
  have hpower : ∀ {ds : List Char}, (∀ c ∈ ds, c.isDigit) → 'e' ∉ ds := fun h =>
    not_mem_of_digits (by decide) h
  rw [positional]
  split_ifs with hsmall hlarge
  · -- all digits stand behind the point
    obtain ⟨k, rfl⟩ : ∃ k : ℕ, point = -(k : ℤ) := ⟨(-point).toNat, by omega⟩
    have hall : ∀ c ∈ List.replicate k '0' ++ cs, c.isDigit := by
      intro c hc
      rcases List.mem_append.mp hc with h | h
      · exact isDigit_replicate k c h
      · exact hcs c h
    have hvalue : Nat.ofDigitChars 10 ('0' :: (List.replicate k '0' ++ cs)) 0 =
        Nat.ofDigitChars 10 cs 0 := by
      rw [← List.cons_append, ← List.replicate_succ, ofDigitChars_append, ofDigitChars_replicate,
        Nat.mul_zero, Nat.zero_add]
    have hread : places? (['0'] ++ '.' :: (List.replicate k '0' ++ cs)) = _ :=
      places?_of_point (by simp) (by simp [hne]) isDigit_zero hall
    rw [List.singleton_append, List.singleton_append, hvalue] at hread
    rw [neg_neg, Int.toNat_natCast, magnitude?_of_no_power, hread]
    · rw [List.length_append, List.length_replicate, sub_eq_add_neg, ← neg_add, zpow_neg,
        div_eq_mul_inv]
      norm_cast
    · simp only [List.mem_cons, not_or]
      exact ⟨by decide, hpoint, hpower hall⟩
  · -- all digits stand in front of the point
    obtain ⟨k, hk⟩ : ∃ k : ℕ, point = (cs.length + k : ℕ) := ⟨point.toNat - cs.length, by omega⟩
    subst hk
    have hall : ∀ c ∈ cs ++ List.replicate k '0', c.isDigit := by
      intro c hc
      rcases List.mem_append.mp hc with h | h
      · exact hcs c h
      · exact isDigit_replicate k c h
    have hread : places? (cs ++ List.replicate k '0' ++ '.' :: ['0']) = _ :=
      places?_of_point (by simp [hne]) (by simp) hall isDigit_zero
    have hdigits : Nat.ofDigitChars 10 (cs ++ List.replicate k '0' ++ ['0']) 0 =
        Nat.ofDigitChars 10 cs 0 * 10 ^ (k + 1) := by
      rw [List.append_assoc, ← List.replicate_succ', ofDigitChars_append, ofDigitChars_replicate,
        List.length_replicate, Nat.add_zero, Nat.mul_comm]
    rw [Int.toNat_natCast, Nat.add_sub_cancel_left, magnitude?_of_no_power, hread, hdigits]
    · have hexponent : ((cs.length + k : ℕ) : ℤ) - cs.length = k := by omega
      rw [hexponent, zpow_natCast, List.length_singleton, pow_one]
      push_cast
      rw [pow_succ]
      field_simp
    · rw [List.mem_append, not_or]
      exact ⟨hpower hall, by decide⟩
  · -- the point stands among the digits
    obtain ⟨k, rfl⟩ : ∃ k : ℕ, point = (k : ℤ) := ⟨point.toNat, by omega⟩
    rw [Int.toNat_natCast] at hlarge ⊢
    have htake : ∀ c ∈ cs.take k, c.isDigit := fun c hc => hcs c (List.mem_of_mem_take hc)
    have hdrop : ∀ c ∈ cs.drop k, c.isDigit := fun c hc => hcs c (List.mem_of_mem_drop hc)
    have hfront : cs.take k ≠ [] := by
      rw [Ne, List.take_eq_nil_iff, not_or]
      exact ⟨by omega, hne⟩
    have hback : cs.drop k ≠ [] := by
      rw [Ne, List.drop_eq_nil_iff]
      omega
    have hlen : k ≤ cs.length := by omega
    rw [magnitude?_of_no_power, places?_of_point hfront hback htake hdrop, List.take_append_drop]
    · have hexponent : (k : ℤ) - cs.length = -((cs.drop k).length : ℤ) := by
        rw [List.length_drop]
        omega
      rw [hexponent, zpow_neg, zpow_natCast, div_eq_mul_inv]
    · rw [List.mem_append, List.mem_cons, not_or, not_or]
      exact ⟨hpower htake, hpoint, hpower hdrop⟩

theorem magnitude?_scientific (point : ℤ) : magnitude? (scientific cs point) =
    some ((Nat.ofDigitChars 10 cs 0 : ℚ) * 10 ^ (point - cs.length)) := by
  match cs, hne, hcs with
  | [d], _, hcs =>
    have hpower : 'e' ∉ [d] := not_mem_of_digits (by decide) hcs
    rw [scientific, ← List.singleton_append, magnitude?_of_power hpower,
      places?_of_digits (by simp) hcs]
    rfl
  | d :: d' :: rest, _, hcs =>
    have hfirst : ∀ c ∈ [d], c.isDigit := fun c hc => hcs c (by simp_all)
    have hrest : ∀ c ∈ d' :: rest, c.isDigit := fun c hc => hcs c (List.mem_cons_of_mem d hc)
    have hpower : 'e' ∉ [d] ++ '.' :: d' :: rest := by
      rw [List.mem_append, List.mem_cons (a := 'e') (b := '.'), not_or, not_or]
      exact ⟨not_mem_of_digits (by decide) hfirst, by decide, not_mem_of_digits (by decide) hrest⟩
    have hshape : scientific (d :: d' :: rest) point =
        ([d] ++ '.' :: d' :: rest) ++ 'e' :: (toString (point - 1)).toList := by
      simp [scientific]
    rw [hshape, magnitude?_of_power hpower, places?_of_point (by simp) (by simp) hfirst hrest,
      Option.map_some, List.singleton_append]
    congr 1
    have hexponent : point - ((d :: d' :: rest).length : ℤ) =
        (point - 1) - ((d' :: rest).length : ℤ) := by
      rw [List.length_cons]
      omega
    rw [hexponent, zpow_sub₀ (by norm_num) (point - 1), zpow_natCast]
    ring

theorem head?_positional (point : ℤ) : (positional cs point).head? ≠ some '-' := by
  have hfirst : cs.head? ≠ some '-' := fun h => not_mem_of_digits (by decide) hcs (List.mem_of_head? h)
  rw [positional]
  split_ifs with hsmall
  · simp
  · rwa [List.append_assoc, List.head?_append_of_ne_nil _ hne]
  · have htake : cs.take point.toNat ≠ [] := by
      rw [Ne, List.take_eq_nil_iff, not_or]
      exact ⟨by omega, hne⟩
    rwa [List.head?_append_of_ne_nil _ htake, List.head?_take, if_neg (by omega)]

theorem head?_scientific (point : ℤ) : (scientific cs point).head? ≠ some '-' := by
  match cs, hne, hcs with
  | d :: rest, _, hcs =>
    have hfirst : d ≠ '-' := by
      rintro rfl
      exact absurd (hcs '-' List.mem_cons_self) (by decide)
    cases rest <;> simpa [scientific] using hfirst

end

theorem signed?_of_unsigned {text : List Char} {x : ℚ} (h : magnitude? text = some x)
    (hsign : text.head? ≠ some '-') (negative : Bool) :
    signed? ((if negative then ['-'] else []) ++ text) = some (negative, x) := by
  cases negative with
  | true =>
    rw [if_pos rfl, List.singleton_append, signed?, h]
    rfl
  | false =>
    rw [if_neg Bool.false_ne_true, List.nil_append]
    unfold signed?
    split
    · exact absurd rfl hsign
    · rw [h]
      rfl

/-- A decimal is read back from its text in any layout. -/
theorem signed?_write (l : Layout) (negative : Bool) (d : Scaled) :
    signed? (l.write negative d) = some (negative, d.value) := by
  have hne := digitChars_ne_nil d.digits
  have hdigits := isDigit_digitChars d.digits
  have hplace : d.place + ((digitChars d.digits).length : ℤ) - (digitChars d.digits).length =
      d.place := add_sub_cancel_right _ _
  unfold write
  dsimp only
  by_cases hzero : d.digits = 0
  · rw [if_pos hzero]
    refine signed?_of_unsigned ?_ (by simp) negative
    have hread : places? (['0'] ++ '.' :: ['0']) = _ :=
      places?_of_point (by simp) (by simp) isDigit_zero isDigit_zero
    have hdigits : Nat.ofDigitChars 10 (['0'] ++ ['0']) 0 = 0 := by decide
    rw [hdigits] at hread
    rw [Scaled.value, hzero, magnitude?_of_no_power (by decide)]
    simpa using hread
  · rw [if_neg hzero]
    by_cases hpoint : l.isPositional (d.place + (digitChars d.digits).length) = true
    · rw [if_pos hpoint]
      refine signed?_of_unsigned ?_ (head?_positional hne hdigits _) negative
      rw [magnitude?_positional hne hdigits, ofDigitChars_digitChars, hplace]
      rfl
    · rw [if_neg hpoint]
      refine signed?_of_unsigned ?_ (head?_scientific hne hdigits _) negative
      rw [magnitude?_scientific hne hdigits, ofDigitChars_digitChars, hplace]
      rfl

/-! ## Points of layouts -/

/-- The point of a decimal is told by its value. -/
theorem isPositional_iff (l : Layout) {d : Scaled} (h : d.digits ≠ 0) :
    l.isPositional (d.place + (digitChars d.digits).length) = true ↔
      10 ^ (l.least - 1) ≤ d.value ∧ d.value < 10 ^ l.most := by
  have hpos : 0 < (digitChars d.digits).length := Nat.length_toDigits_pos
  have hten : (1 : ℚ) < 10 := by norm_num
  have hfew : d.digits < 10 ^ (digitChars d.digits).length :=
    (Nat.length_toDigits_le_iff (by decide) hpos).mp le_rfl
  have hmany : 10 ^ ((digitChars d.digits).length - 1) ≤ d.digits := by
    rcases Nat.eq_zero_or_pos ((digitChars d.digits).length - 1) with hone | hmore
    · rw [hone]
      exact Nat.pos_of_ne_zero h
    · by_contra hlt
      have hlen := (Nat.length_toDigits_le_iff (by decide) hmore).mpr (not_le.mp hlt)
      exact absurd hlen (by rw [← digitChars]; omega)
  generalize (digitChars d.digits).length = n at hpos hfew hmany ⊢
  have hplace : (0 : ℚ) < 10 ^ d.place := by positivity
  have hbelow : (10 : ℚ) ^ (d.place + n - 1) ≤ d.value := by
    have hsplit : d.place + n - 1 = ((n - 1 : ℕ) : ℤ) + d.place := by omega
    rw [hsplit, zpow_add₀ (by norm_num), zpow_natCast, Scaled.value]
    exact mul_le_mul_of_nonneg_right (by exact_mod_cast hmany) hplace.le
  have habove : d.value < (10 : ℚ) ^ (d.place + n) := by
    rw [add_comm, zpow_add₀ (by norm_num), zpow_natCast, Scaled.value]
    exact mul_lt_mul_of_pos_right (by exact_mod_cast hfew) hplace
  rw [isPositional, Bool.and_eq_true, decide_eq_true_iff, decide_eq_true_iff]
  constructor
  · rintro ⟨hleast, hmost⟩
    exact ⟨(zpow_le_zpow_right₀ hten.le (by omega)).trans hbelow,
      habove.trans_le (zpow_le_zpow_right₀ hten.le hmost)⟩
  · rintro ⟨hleast, hmost⟩
    have hlow := (zpow_lt_zpow_iff_right₀ hten).mp (hleast.trans_lt habove)
    have hhigh := (zpow_lt_zpow_iff_right₀ hten).mp (hbelow.trans_lt hmost)
    omega

/-- A decimal is written with a power of ten if its point is outside the layout. -/
theorem mem_write_iff (l : Layout) (negative : Bool) (d : Scaled) : 'e' ∈ l.write negative d ↔
    d.digits ≠ 0 ∧ ¬ (10 ^ (l.least - 1) ≤ d.value ∧ d.value < 10 ^ l.most) := by
  have hsign : 'e' ∉ (if negative then ['-'] else []) := by cases negative <;> decide
  have hdigits : 'e' ∉ digitChars d.digits :=
    not_mem_of_digits (by decide) (isDigit_digitChars d.digits)
  unfold write
  dsimp only
  by_cases hzero : d.digits = 0
  · rw [if_pos hzero, List.mem_append]
    simp [hsign, hzero]
  rw [if_neg hzero, List.mem_append, ← l.isPositional_iff hzero]
  simp only [hsign, false_or, hzero, ne_eq, not_false_eq_true, true_and]
  by_cases hpoint : l.isPositional (d.place + (digitChars d.digits).length) = true
  · have hzeros : ∀ n, 'e' ∉ List.replicate n '0' := fun n h =>
      absurd (List.eq_of_mem_replicate h) (by decide)
    rw [if_pos hpoint]
    refine iff_of_false ?_ (not_not_intro hpoint)
    rw [positional]
    split_ifs
    · simp [hdigits]
    · simp [hdigits]
    · simp only [List.mem_append, List.mem_cons, not_or]
      exact ⟨fun h => hdigits (List.mem_of_mem_take h), by decide,
        fun h => hdigits (List.mem_of_mem_drop h)⟩
  · rw [if_neg hpoint]
    refine iff_of_true ?_ hpoint
    unfold scientific
    split <;> simp

end Layout

end KernelForge.Decimal

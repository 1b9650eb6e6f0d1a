import KernelForge.Text.Hex
import Mathlib.Data.Nat.Digits.Lemmas
import Mathlib.Tactic.IntervalCases

/-!
# Hexadecimal numerals

A numeral is a row of digits of either case with the value that they have by their places. Exactly
the numerals are read. In a number of places a value has one numeral of lowercase digits, which any
other numeral of the value comes to when its letters are made small and its zeros in front are
trimmed or filled up.
-/
namespace KernelForge.Text.Hex

def lowercase : List Char := "0123456789abcdef".toList

def uppercase : List Char := "0123456789ABCDEF".toList

/-- A digit of either case stands for a value. -/
def Stands (c : Char) (d : ℕ) : Prop := lowercase[d]? = some c ∨ uppercase[d]? = some c

instance (c : Char) (d : ℕ) : Decidable (Stands c d) := inferInstanceAs (Decidable (_ ∨ _))

/-- Digits write a number. The last of them counts least. -/
def Numeral (cs : List Char) (n : ℕ) : Prop :=
  cs ≠ [] ∧ ∃ ds, List.Forall₂ Stands cs ds ∧ n = Nat.ofDigits 16 ds.reverse

/-- The digits in small letters, without zeros in front but those that fill up the places. -/
def canonical (width : ℕ) (cs : List Char) : List Char :=
  ((cs.map Char.toLower).dropWhile (· == '0')).leftpad width '0'

/-! ## Digits -/

theorem digit_plain {n : ℕ} (h : n < 16) :
    digit n ≠ '/' ∧ digit n ≠ '\x00' ∧ (digit n).utf8Size = 1 := by
  interval_cases n <;> decide

theorem digit_mem {n : ℕ} (h : n < 16) : digit n ∈ lowercase := by
  interval_cases n <;> decide

theorem stands_digit {n : ℕ} (h : n < 16) : Stands (digit n) n := by
  interval_cases n <;> decide

theorem Stands.lt {c : Char} {d : ℕ} (h : Stands c d) : d < 16 := by
  rcases h with h | h
  all_goals
    obtain ⟨hlt, -⟩ := List.getElem?_eq_some_iff.mp h
    exact hlt

theorem Stands.spec {c : Char} {d : ℕ} (h : Stands c d) :
    value? c = some d ∧ c.toLower = digit d := by
  have hd := h.lt
  rcases h with h | h
  all_goals
    interval_cases d <;> obtain rfl := Option.some.inj h <;> decide

theorem stands_of_range {c : Char} {first : ℕ} (count value : ℕ) (hlow : first ≤ c.toNat)
    (hhigh : c.toNat < first + count)
    (hall : ∀ i, i < count → Stands (Char.ofNat (first + i)) (i + value)) :
    Stands c (c.toNat - first + value) := by
  have hc := hall (c.toNat - first) (by omega)
  rwa [Nat.add_sub_cancel' hlow, Char.ofNat_toNat] at hc

theorem value?_eq_some_iff {c : Char} {d : ℕ} : value? c = some d ↔ Stands c d := by
  refine ⟨fun h => ?_, fun h => h.spec.1⟩
  have hrange : ∀ {low high : Char}, low ≤ c ∧ c ≤ high →
      low.toNat ≤ c.toNat ∧ c.toNat ≤ high.toNat := fun hc => hc
  unfold value? at h
  split_ifs at h with hdigit hsmall hlarge
  · obtain ⟨hlow, hhigh⟩ := hrange hdigit
    obtain rfl := Option.some.inj h
    exact stands_of_range 10 0 hlow (Nat.lt_succ_of_le hhigh) (by decide)
  · obtain ⟨hlow, hhigh⟩ := hrange hsmall
    obtain rfl := Option.some.inj h
    exact stands_of_range 6 10 hlow (Nat.lt_succ_of_le hhigh) (by decide)
  · obtain ⟨hlow, hhigh⟩ := hrange hlarge
    obtain rfl := Option.some.inj h
    exact stands_of_range 6 10 hlow (Nat.lt_succ_of_le hhigh) (by decide)

/-! ## Reading -/

theorem valueFrom_eq_some_iff {cs : List Char} {m n : ℕ} : valueFrom m cs = some n ↔
    ∃ ds, List.Forall₂ Stands cs ds ∧ n = 16 ^ ds.length * m + Nat.ofDigits 16 ds.reverse := by
  induction cs generalizing m with
  | nil => simp [valueFrom, eq_comm]
  | cons c cs ih =>
    simp only [valueFrom, Option.bind_eq_some_iff, value?_eq_some_iff, ih]
    constructor
    · rintro ⟨d, hd, ds, hds, rfl⟩
      refine ⟨d :: ds, .cons hd hds, ?_⟩
      rw [List.reverse_cons, Nat.ofDigits_append, List.length_reverse, Nat.ofDigits_singleton,
        List.length_cons]
      ring
    · rintro ⟨_, hds, rfl⟩
      obtain _ | ⟨hd, hds⟩ := hds
      rename_i d ds
      refine ⟨d, hd, ds, hds, ?_⟩
      rw [List.reverse_cons, Nat.ofDigits_append, List.length_reverse, Nat.ofDigits_singleton,
        List.length_cons]
      ring

theorem parse?_eq_some_iff {cs : List Char} {n : ℕ} : parse? cs = some n ↔ Numeral cs n := by
  unfold parse? Numeral
  cases cs with
  | nil => simp
  | cons c cs => simp [valueFrom_eq_some_iff]

/-! ## Writing in a number of places -/

theorem length_fixed (width n : ℕ) : (fixed width n).length = width := by
  induction width generalizing n with
  | zero => rfl
  | succ width ih => simp [fixed, ih]

theorem mem_fixed {width n : ℕ} {c : Char} (h : c ∈ fixed width n) :
    ∃ d, d < 16 ∧ c = digit d := by
  induction width generalizing n with
  | zero => simp [fixed] at h
  | succ width ih =>
    rw [fixed, List.mem_append, List.mem_singleton] at h
    rcases h with h | h
    · exact ih h
    · exact ⟨n % 16, Nat.mod_lt _ (by decide), h⟩

/-- One more digit behind the others. -/
theorem ofDigits_concat (ds : List ℕ) (d : ℕ) :
    Nat.ofDigits 16 (ds ++ [d]).reverse = d + 16 * Nat.ofDigits 16 ds.reverse := by
  rw [List.reverse_append, List.reverse_singleton, List.singleton_append, Nat.ofDigits_cons]

theorem stands_fixed {width n : ℕ} (hn : n < 16 ^ width) :
    ∃ ds, List.Forall₂ Stands (fixed width n) ds ∧ n = Nat.ofDigits 16 ds.reverse := by
  induction width generalizing n with
  | zero => exact ⟨[], .nil, by simpa using hn⟩
  | succ width ih =>
    rw [Nat.pow_succ] at hn
    obtain ⟨ds, hds, hvalue⟩ := ih (n := n / 16) (by omega)
    have hlast := stands_digit (Nat.mod_lt n (by decide : 0 < 16))
    refine ⟨ds ++ [n % 16], List.rel_append hds (.cons hlast .nil), ?_⟩
    rw [ofDigits_concat, ← hvalue]
    omega

theorem numeral_fixed {width n : ℕ} (hwidth : width ≠ 0) (hn : n < 16 ^ width) :
    Numeral (fixed width n) n := by
  refine ⟨fun hnil => hwidth ?_, stands_fixed hn⟩
  rw [← length_fixed width n, hnil, List.length_nil]

theorem parse?_fixed {width n : ℕ} (hwidth : width ≠ 0) (hn : n < 16 ^ width) :
    parse? (fixed width n) = some n :=
  parse?_eq_some_iff.mpr (numeral_fixed hwidth hn)

theorem fixed_injective {width m n : ℕ} (hm : m < 16 ^ width) (hn : n < 16 ^ width)
    (h : fixed width m = fixed width n) : m = n := by
  rcases Nat.eq_zero_or_pos width with rfl | hwidth
  · omega
  · have hread := parse?_fixed hwidth.ne' hm
    rw [h, parse?_fixed hwidth.ne' hn] at hread
    exact (Option.some.inj hread).symm

/-! ## Canonical digits -/

theorem map_toLower {cs : List Char} {ds : List ℕ} (h : List.Forall₂ Stands cs ds) :
    cs.map Char.toLower = ds.map digit := by
  induction h with
  | nil => rfl
  | cons hd _ ih => rw [List.map_cons, List.map_cons, ih, hd.spec.2]

theorem lt_of_stands {cs : List Char} {ds : List ℕ} (h : List.Forall₂ Stands cs ds) :
    ∀ d ∈ ds, d < 16 := by
  induction h with
  | nil => simp
  | cons hd _ ih => simpa using ⟨hd.lt, ih⟩

/-- The digits of a value in as many places as there are digits. -/
theorem fixed_ofDigits {ds : List ℕ} (h : ∀ d ∈ ds, d < 16) :
    fixed ds.length (Nat.ofDigits 16 ds.reverse) = ds.map digit := by
  induction ds using List.reverseRecOn with
  | nil => rfl
  | append_singleton ds d ih =>
    have hd : d < 16 := h d (by simp)
    have hdiv : (d + 16 * Nat.ofDigits 16 ds.reverse) / 16 = Nat.ofDigits 16 ds.reverse := by omega
    have hmod : (d + 16 * Nat.ofDigits 16 ds.reverse) % 16 = d := by omega
    rw [ofDigits_concat, List.length_append, List.length_singleton, fixed, hdiv, hmod,
      ih fun e he => h e (List.mem_append_left _ he), List.map_append, List.map_singleton]

/-- In more places there are zeros in front. -/
theorem fixed_of_length_le {width : ℕ} {ds : List ℕ} (h : ∀ d ∈ ds, d < 16)
    (hlength : ds.length ≤ width) :
    fixed width (Nat.ofDigits 16 ds.reverse) = (ds.map digit).leftpad width '0' := by
  have hfilled : ∀ d ∈ List.replicate (width - ds.length) 0 ++ ds, d < 16 := by
    intro d hd
    rcases List.mem_append.mp hd with hd | hd
    · rw [List.eq_of_mem_replicate hd]
      decide
    · exact h d hd
  have hcount : (List.replicate (width - ds.length) 0 ++ ds).length = width := by
    rw [List.length_append, List.length_replicate]
    omega
  have hfixed := fixed_ofDigits hfilled
  rw [hcount, List.reverse_append, List.reverse_replicate, Nat.ofDigits_append_replicate_zero,
    List.map_append, List.map_replicate] at hfixed
  rw [hfixed, List.leftpad, List.length_map]
  rfl

/-- Zeros in front are the digits that are trimmed. -/
theorem dropWhile_map_digit {ds : List ℕ} (h : ∀ d ∈ ds, d < 16) :
    (ds.map digit).dropWhile (· == '0') = (ds.dropWhile (· == 0)).map digit := by
  induction ds with
  | nil => rfl
  | cons d ds ih =>
    have hd : (digit d == '0') = (d == 0) := by
      have hlt := h d (by simp)
      interval_cases d <;> rfl
    rw [List.map_cons, List.dropWhile_cons, List.dropWhile_cons, hd]
    split_ifs
    · exact ih fun e he => h e (List.mem_cons_of_mem _ he)
    · rfl

theorem ofDigits_dropWhile (ds : List ℕ) :
    Nat.ofDigits 16 (ds.dropWhile (· == 0)).reverse = Nat.ofDigits 16 ds.reverse := by
  induction ds with
  | nil => rfl
  | cons d ds ih =>
    rw [List.dropWhile_cons]
    split_ifs with hzero
    · rw [ih, eq_of_beq hzero, List.reverse_cons, Nat.ofDigits_append, Nat.ofDigits_singleton,
        Nat.mul_zero, Nat.add_zero]
    · rfl

/-- Digits that are trimmed are those of their value. -/
theorem digits_dropWhile {ds : List ℕ} (h : ∀ d ∈ ds, d < 16) :
    Nat.digits 16 (Nat.ofDigits 16 ds.reverse) = (ds.dropWhile (· == 0)).reverse := by
  rw [← ofDigits_dropWhile]
  refine Nat.digits_ofDigits 16 (by decide) _ (fun d hd => ?_) fun hne => ?_
  · exact h d ((List.dropWhile_sublist _).subset (List.mem_reverse.mp hd))
  · have hhead := List.head_dropWhile_not (· == 0) (l := ds) (by simpa using hne)
    rw [List.getLast_reverse]
    simpa using hhead

/-- Whatever numeral of a value is written, its canonical digits are those of the value. -/
theorem Numeral.canonical_eq {width n : ℕ} {cs : List Char} (h : Numeral cs n)
    (hn : n < 16 ^ width) : canonical width cs = fixed width n := by
  obtain ⟨-, ds, hds, rfl⟩ := h
  have hsmall := lt_of_stands hds
  have hlength : (ds.dropWhile (· == 0)).length ≤ width := by
    rw [← List.length_reverse, ← digits_dropWhile hsmall]
    exact (Nat.digits_length_le_iff (by decide) _).mpr hn
  have htrimmed : ∀ d ∈ ds.dropWhile (· == 0), d < 16 := fun d hd =>
    hsmall d ((List.dropWhile_sublist _).subset hd)
  rw [← ofDigits_dropWhile, fixed_of_length_le htrimmed hlength, canonical, map_toLower hds,
    dropWhile_map_digit hsmall]

end KernelForge.Text.Hex

import KernelForge.Proofs.Decimal.Shortest
import KernelForge.Decimal.Binary
import Mathlib.Algebra.Order.Ring.Abs
import Mathlib.Order.Monotone.Basic
import Mathlib.Tactic.LinearCombination

/-!
# Rounding to binary floats

The patterns of a binary format without their sign are numbered so that their values ascend.
Rounding picks the nearest value, and of two that are equally near the one with the even pattern. The
numbers that round to a pattern form the interval around its value.
-/
namespace KernelForge.Decimal

namespace BinaryFormat

variable {f : BinaryFormat}

/-! ## Values of patterns -/

/-- The pattern of infinity. Greater ones are no numbers. -/
def infinity (f : BinaryFormat) : ℕ := (f.exponents - 1) * f.fractions

def significand (f : BinaryFormat) (n : ℕ) : ℕ :=
  if n < f.fractions then n else f.fractions + n % f.fractions

/-- The exponent of the last place. The two lowest biased exponents share it. -/
def lastPlace (f : BinaryFormat) (n : ℕ) : ℤ := f.minExponent + (n / f.fractions - 1 : ℕ)

/-- The value of a pattern without its sign. To a number that is rounded, infinity is the power of
two that follows the largest finite value. -/
def magnitude (f : BinaryFormat) (n : ℕ) : ℚ := f.significand n * 2 ^ f.lastPlace n

/-- Rounding a number to the nearest pattern without a sign, and to the even one of two. -/
structure Nearest (f : BinaryFormat) (x : ℚ) (n : ℕ) : Prop where
  le_infinity : n ≤ f.infinity
  nearest : ∀ m ≤ f.infinity, |x - f.magnitude n| ≤ |x - f.magnitude m|
  even : ∀ m ≤ f.infinity, m ≠ n → |x - f.magnitude n| = |x - f.magnitude m| → n % 2 = 0

theorem fractions_pos (f : BinaryFormat) : 0 < f.fractions := Nat.pow_pos (by decide)

theorem exponents_pos (f : BinaryFormat) : 0 < f.exponents := Nat.pow_pos (by decide)

theorem lastPlace_of_lt {n : ℕ} (h : n < 2 * f.fractions) : f.lastPlace n = f.minExponent := by
  have hdiv : n / f.fractions < 2 := (Nat.div_lt_iff_lt_mul f.fractions_pos).mpr h
  rw [lastPlace]
  omega

/-- The next pattern has the next fraction, or carries into the exponent. -/
theorem succ_cases (f : BinaryFormat) (n : ℕ) :
    (n % f.fractions + 1 = f.fractions ∧ (n + 1) / f.fractions = n / f.fractions + 1 ∧
        (n + 1) % f.fractions = 0) ∨
      (n % f.fractions + 1 < f.fractions ∧ (n + 1) / f.fractions = n / f.fractions ∧
        (n + 1) % f.fractions = n % f.fractions + 1) := by
  have hpos := f.fractions_pos
  have hsplit := Nat.div_add_mod n f.fractions
  rcases Nat.eq_or_lt_of_le (Nat.mod_lt n hpos) with hcarry | hlt
  · left
    have hnext : n + 1 = f.fractions * (n / f.fractions + 1) := by
      rw [Nat.mul_add, Nat.mul_one]
      omega
    refine ⟨hcarry, ?_, ?_⟩
    · rw [hnext, Nat.mul_div_cancel_left _ hpos]
    · rw [hnext, Nat.mul_mod_right]
  · right
    have hnext : n + 1 = f.fractions * (n / f.fractions) + (n % f.fractions + 1) := by omega
    refine ⟨hlt, ?_, ?_⟩
    · conv_lhs => rw [hnext]
      rw [Nat.mul_add_div hpos, Nat.div_eq_of_lt hlt, Nat.add_zero]
    · conv_lhs => rw [hnext]
      rw [Nat.mul_add_mod, Nat.mod_eq_of_lt hlt]

/-- The values stand one last place apart. -/
theorem magnitude_succ (f : BinaryFormat) (n : ℕ) :
    f.magnitude (n + 1) = f.magnitude n + 2 ^ f.lastPlace n := by
  have hpos := f.fractions_pos
  rcases Nat.lt_or_ge (n + 1) f.fractions with hlt | hge
  · rw [magnitude, magnitude, lastPlace_of_lt (by omega), lastPlace_of_lt (by omega), significand,
      significand, if_pos hlt, if_pos (by omega)]
    push_cast
    ring
  rcases Nat.eq_or_lt_of_le hge with heq | hgt
  · rw [magnitude, magnitude, lastPlace_of_lt (by omega), lastPlace_of_lt (by omega), significand,
      significand, if_neg (by omega), if_pos (by omega), ← heq, Nat.mod_self, Nat.add_zero]
    rw [heq]
    push_cast
    ring
  -- both patterns have a leading bit
  have hone : 1 ≤ n / f.fractions := (Nat.le_div_iff_mul_le hpos).mpr (by omega)
  rw [magnitude, magnitude, significand, significand, if_neg (by omega), if_neg (by omega)]
  rcases f.succ_cases n with ⟨hcarry, hdiv, hmod⟩ | ⟨-, hdiv, hmod⟩
  · have hplace : f.lastPlace (n + 1) = f.lastPlace n + 1 := by
      rw [lastPlace, lastPlace, hdiv]
      omega
    have hcast : ((n % f.fractions : ℕ) : ℚ) + 1 = f.fractions := by exact_mod_cast hcarry
    rw [hplace, zpow_add₀ (by norm_num), hmod]
    push_cast
    linear_combination (-(2 : ℚ) ^ f.lastPlace n) * hcast
  · have hplace : f.lastPlace (n + 1) = f.lastPlace n := by rw [lastPlace, lastPlace, hdiv]
    rw [hplace, hmod]
    push_cast
    ring

theorem magnitude_strictMono (f : BinaryFormat) : StrictMono f.magnitude :=
  strictMono_nat_of_lt_succ fun n => by
    rw [magnitude_succ]
    exact lt_add_of_pos_right _ (by positivity)

theorem magnitude_zero (f : BinaryFormat) : f.magnitude 0 = 0 := by
  rw [magnitude, significand, if_pos f.fractions_pos]
  simp

/-! ## Nearest values -/

/-- Which of two numbers is nearer is told by the middle between them. -/
theorem abs_sub_upper_le_iff {a b x : ℚ} (h : a < b) : |x - b| ≤ |x - a| ↔ a + b ≤ 2 * x := by
  rw [← sq_le_sq]
  constructor
  · intro hle
    nlinarith
  · intro hle
    nlinarith

theorem abs_sub_lower_le_iff {a b x : ℚ} (h : a < b) : |x - a| ≤ |x - b| ↔ 2 * x ≤ a + b := by
  rw [← sq_le_sq]
  constructor
  · intro hle
    nlinarith
  · intro hle
    nlinarith

/-- No two patterns are both nearest: between two even ones there is a third. -/
theorem Nearest.unique {x : ℚ} {n m : ℕ} (hn : f.Nearest x n) (hm : f.Nearest x m) : n = m := by
  wlog hlt : n < m generalizing n m
  · rcases Nat.lt_trichotomy n m with h | h | h
    · exact this hn hm h
    · exact h
    · exact (this hm hn h).symm
  exfalso
  have hsame := le_antisymm (hn.nearest m hm.le_infinity) (hm.nearest n hn.le_infinity)
  have heven := hn.even m hm.le_infinity (by omega) hsame
  have heven' := hm.even n hn.le_infinity (by omega) hsame.symm
  have hinf := hm.le_infinity
  have hmono := f.magnitude_strictMono
  have hlow : f.magnitude n < f.magnitude (n + 1) := hmono (by omega)
  have hhigh : f.magnitude (n + 1) < f.magnitude m := hmono (by omega)
  have h₁ := (abs_sub_lower_le_iff hlow).mp (hn.nearest (n + 1) (by omega))
  have h₂ := (abs_sub_upper_le_iff hhigh).mp (hm.nearest (n + 1) (by omega))
  linarith

theorem nearest_zero (f : BinaryFormat) : f.Nearest 0 0 where
  le_infinity := Nat.zero_le _
  nearest m _ := by
    rw [magnitude_zero, sub_zero, abs_zero]
    exact abs_nonneg _
  even _ _ _ _ := rfl

/-- The numbers nearest to a pattern lie between the middles to its neighbours. The middles belong to
them if the pattern is even. -/
theorem nearest_succ_iff {x : ℚ} {n : ℕ} (hn : n + 1 < f.infinity) : f.Nearest x (n + 1) ↔
    (f.magnitude n + f.magnitude (n + 1) ≤ 2 * x ∧
      2 * x ≤ f.magnitude (n + 1) + f.magnitude (n + 2)) ∧
    ((n + 1) % 2 ≠ 0 → f.magnitude n + f.magnitude (n + 1) ≠ 2 * x ∧
      2 * x ≠ f.magnitude (n + 1) + f.magnitude (n + 2)) := by
  have hmono := f.magnitude_strictMono
  have hlow : f.magnitude n < f.magnitude (n + 1) := hmono (by omega)
  have hhigh : f.magnitude (n + 1) < f.magnitude (n + 2) := hmono (by omega)
  constructor
  · intro h
    refine ⟨⟨(abs_sub_upper_le_iff hlow).mp (h.nearest n (by omega)),
      (abs_sub_lower_le_iff hhigh).mp (h.nearest (n + 2) (by omega))⟩, fun hodd => ⟨?_, ?_⟩⟩
    · intro heq
      refine hodd (h.even n (by omega) (by omega) (le_antisymm (h.nearest n (by omega)) ?_))
      exact (abs_sub_lower_le_iff hlow).mpr heq.ge
    · intro heq
      refine hodd (h.even (n + 2) (by omega) (by omega)
        (le_antisymm (h.nearest (n + 2) (by omega)) ?_))
      exact (abs_sub_upper_le_iff hhigh).mpr heq.ge
  · rintro ⟨⟨hmin, hmax⟩, hodd⟩
    refine ⟨by omega, fun m _ => ?_, fun m _ hne heq => ?_⟩
    · rcases Nat.lt_trichotomy m (n + 1) with hlt | rfl | hgt
      · have hle : f.magnitude m ≤ f.magnitude n := hmono.monotone (by omega)
        exact (abs_sub_upper_le_iff (hmono hlt)).mpr (by linarith)
      · exact le_rfl
      · have hle : f.magnitude (n + 2) ≤ f.magnitude m := hmono.monotone (by omega)
        exact (abs_sub_lower_le_iff (hmono hgt)).mpr (by linarith)
    · -- only a neighbour can be equally near, and then the number is the middle
      by_contra hfalse
      obtain ⟨hmin', hmax'⟩ := hodd hfalse
      rcases Nat.lt_or_gt_of_ne hne with hlt | hgt
      · have hle : f.magnitude m ≤ f.magnitude n := hmono.monotone (by omega)
        have hmiddle := (abs_sub_lower_le_iff (hmono hlt)).mp heq.ge
        exact hmin' (by linarith)
      · have hle : f.magnitude (n + 2) ≤ f.magnitude m := hmono.monotone (by omega)
        have hmiddle := (abs_sub_upper_le_iff (hmono hgt)).mp heq.ge
        exact hmax' (by linarith)

/-! ## The interval of a pattern -/

/-- The neighbour towards zero is only half as far away as the other one. -/
def narrow (f : BinaryFormat) (n : ℕ) : Bool := n % f.fractions == 0 && decide (1 < n / f.fractions)

def interval (f : BinaryFormat) (n : ℕ) : Interval :=
  .around (f.significand n) (f.lastPlace n) (f.narrow n)

theorem lastPlace_succ (f : BinaryFormat) (n : ℕ) :
    f.lastPlace (n + 1) = f.lastPlace n + if f.narrow (n + 1) then 1 else 0 := by
  rcases f.succ_cases n with ⟨-, hdiv, hmod⟩ | ⟨-, hdiv, hmod⟩
  · -- the two lowest biased exponents share their last place
    rw [narrow, lastPlace, lastPlace, hdiv, hmod, Nat.add_sub_cancel, beq_self_eq_true,
      Bool.true_and]
    rcases Nat.eq_zero_or_pos (n / f.fractions) with hzero | hone
    · rw [hzero, if_neg (by decide), add_zero]
    · rw [if_pos (decide_eq_true (by omega))]
      omega
  · rw [narrow, lastPlace, lastPlace, hdiv, hmod, beq_false_of_ne (Nat.succ_ne_zero _),
      Bool.false_and, if_neg Bool.false_ne_true, add_zero]

theorem significand_pos (f : BinaryFormat) (n : ℕ) : 0 < f.significand (n + 1) := by
  have hpos := f.fractions_pos
  rw [significand]
  split_ifs <;> omega

theorem significand_mod_two (heven : f.fractions % 2 = 0) (n : ℕ) :
    f.significand n % 2 = n % 2 := by
  have hdiv := Nat.div_add_mod n f.fractions
  have hmul : f.fractions * (n / f.fractions) % 2 = 0 := by
    rw [Nat.mul_mod, heven, Nat.zero_mul]
  rw [significand]
  split_ifs
  · rfl
  · omega

theorem proper_interval (f : BinaryFormat) (n : ℕ) : (f.interval (n + 1)).Proper := by
  have hpos := f.significand_pos n
  have hwidth : (if f.narrow (n + 1) then 1 else 2) ≤ 2 := by split <;> decide
  have hwidth' : 0 < if f.narrow (n + 1) then 1 else 2 := by split <;> decide
  constructor <;> simp only [interval, Interval.around] <;> omega

/-- The ends of the interval are the middles to the neighbours. -/
theorem ends_interval (f : BinaryFormat) (n : ℕ) :
    2 * ((f.interval (n + 1)).low * (2 : ℚ) ^ (f.interval (n + 1)).unit) =
        f.magnitude n + f.magnitude (n + 1) ∧
      2 * ((f.interval (n + 1)).high * (2 : ℚ) ^ (f.interval (n + 1)).unit) =
        f.magnitude (n + 1) + f.magnitude (n + 2) := by
  have hpos := f.significand_pos n
  have hunit : (2 : ℚ) ^ (f.lastPlace (n + 1) - 2) = 2 ^ f.lastPlace (n + 1) / 4 := by
    rw [zpow_sub₀ (by norm_num)]
    norm_num
  have hvalue : f.magnitude (n + 1) = f.significand (n + 1) * 2 ^ f.lastPlace (n + 1) := rfl
  have hbelow := f.magnitude_succ n
  have habove := f.magnitude_succ (n + 1)
  have hplace := f.lastPlace_succ n
  simp only [interval, Interval.around, hunit]
  constructor
  · by_cases hnarrow : f.narrow (n + 1) = true
    · rw [if_pos hnarrow] at hplace ⊢
      rw [hplace, zpow_add₀ (by norm_num)] at hvalue ⊢
      rw [Nat.cast_sub (by omega)]
      push_cast
      linarith
    · rw [if_neg hnarrow, add_zero] at hplace
      rw [if_neg hnarrow, Nat.cast_sub (by omega)]
      rw [hplace] at hvalue ⊢
      push_cast
      linarith
  · push_cast
    linarith

/-- The interval of a pattern holds the numbers that round to it. -/
theorem holds_interval_iff (heven : f.fractions % 2 = 0) {n : ℕ} (hn : n + 1 < f.infinity) {x : ℚ} :
    (f.interval (n + 1)).Holds x ↔ f.Nearest x (n + 1) := by
  obtain ⟨hlow, hhigh⟩ := f.ends_interval n
  have hclosed : (f.interval (n + 1)).closed = decide ((n + 1) % 2 = 0) := by
    rw [← significand_mod_two heven]
    rfl
  rw [nearest_succ_iff hn, ← hlow, ← hhigh, Interval.Holds, hclosed]
  by_cases hparity : (n + 1) % 2 = 0
  · rw [if_pos (decide_eq_true hparity)]
    constructor
    · rintro ⟨hmin, hmax⟩
      exact ⟨⟨by linarith, by linarith⟩, fun hodd => absurd hparity hodd⟩
    · rintro ⟨⟨hmin, hmax⟩, -⟩
      exact ⟨by linarith, by linarith⟩
  · rw [if_neg (by simpa using hparity)]
    constructor
    · rintro ⟨hmin, hmax⟩
      exact ⟨⟨by linarith, by linarith⟩, fun _ => ⟨by linarith, by linarith⟩⟩
    · rintro ⟨⟨hmin, hmax⟩, hopen⟩
      obtain ⟨hmin', hmax'⟩ := hopen hparity
      exact ⟨lt_of_le_of_ne (by linarith) fun heq => hmin' (by linarith),
        lt_of_le_of_ne (by linarith) fun heq => hmax' (by linarith)⟩

/-! ## Bits -/

/-- The pattern in bits, without the sign. -/
def unsigned (f : BinaryFormat) (bits : ℕ) : ℕ := bits % (f.fractions * f.exponents)

/-- The bits of a pattern with a sign. -/
def signed (f : BinaryFormat) (negative : Bool) (n : ℕ) : ℕ :=
  (if negative then f.fractions * f.exponents else 0) + n

/-- Bits are a sign and a pattern. -/
theorem signed_unsigned {bits : ℕ} (h : bits < 2 * (f.fractions * f.exponents)) :
    f.signed (f.negative bits) (f.unsigned bits) = bits := by
  have hdiv := Nat.div_add_mod bits (f.fractions * f.exponents)
  have hlt : bits / (f.fractions * f.exponents) < 2 :=
    (Nat.div_lt_iff_lt_mul (Nat.mul_pos f.fractions_pos f.exponents_pos)).mpr h
  rw [signed, negative, unsigned]
  generalize bits / (f.fractions * f.exponents) = sign at hdiv hlt ⊢
  obtain rfl | rfl : sign = 0 ∨ sign = 1 := by omega
  · simpa using hdiv
  · simpa using hdiv

/-- What bits stand for is told by their pattern. -/
theorem datum_eq (f : BinaryFormat) (bits : ℕ) : f.datum bits =
    if f.unsigned bits < f.infinity then
      .finite (f.negative bits) (f.significand (f.unsigned bits)) (f.lastPlace (f.unsigned bits))
        (f.narrow (f.unsigned bits))
    else if f.unsigned bits = f.infinity then .infinite (f.negative bits) else .nan := by
  have hpos := f.fractions_pos
  have hfraction : f.fraction bits = f.unsigned bits % f.fractions :=
    (Nat.mod_mul_right_mod ..).symm
  have hbiased : f.biasedExponent bits = f.unsigned bits / f.fractions :=
    (Nat.mod_mul_right_div_self ..).symm
  have hlt : f.unsigned bits < f.fractions * f.exponents :=
    Nat.mod_lt _ (Nat.mul_pos hpos f.exponents_pos)
  rw [datum, hfraction, hbiased]
  generalize f.unsigned bits = n at hlt ⊢
  have hdiv := Nat.div_add_mod n f.fractions
  have hquotient : n / f.fractions < f.exponents := Nat.div_lt_of_lt_mul hlt
  by_cases hlast : n / f.fractions = f.exponents - 1
  · have hsplit : f.infinity + n % f.fractions = n := by
      rw [infinity, ← hlast, Nat.mul_comm]
      exact hdiv
    rw [if_pos hlast, if_neg (c := n < f.infinity) (by omega)]
    by_cases hzero : n % f.fractions = 0
    · rw [if_pos hzero, if_pos (by omega)]
    · rw [if_neg hzero, if_neg (by omega)]
  · have hfinite : n < f.infinity :=
      (Nat.div_lt_iff_lt_mul hpos).mp (by omega)
    rw [if_neg hlast, if_pos hfinite]
    by_cases hzero : n / f.fractions = 0
    · have hsmall : n < f.fractions := by
        by_contra hge
        exact absurd hzero (Nat.div_pos (not_lt.mp hge) hpos).ne'
      rw [if_pos hzero, significand, if_pos hsmall, lastPlace_of_lt (by omega), narrow, hzero,
        Nat.mod_eq_of_lt hsmall]
      simp
    · have hlarge : ¬ n < f.fractions := fun h => hzero (Nat.div_eq_of_lt h)
      have hone := Nat.pos_of_ne_zero hzero
      rw [if_neg hzero, significand, if_neg hlarge, lastPlace, narrow]
      generalize n / f.fractions = biased at hone
      have hplace : f.minExponent + (biased : ℤ) - 1 = f.minExponent + (biased - 1 : ℕ) := by omega
      have hnarrow : (biased != 1) = decide (1 < biased) := by
        rw [Bool.eq_iff_iff, bne_iff_ne, decide_eq_true_iff]
        omega
      rw [hplace, hnarrow]

end BinaryFormat

end KernelForge.Decimal

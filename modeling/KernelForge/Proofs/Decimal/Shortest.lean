import KernelForge.Proofs.Decimal.Reading
import KernelForge.Decimal.Shortest
import Mathlib.Algebra.Order.Field.Power
import Mathlib.Tactic.Linarith
import Mathlib.Tactic.Positivity

/-!
# The shortest decimal

What `Interval.shortest` finds lies in the interval, and no decimal of the interval lies on a coarser
grid. Such a decimal has the fewest digits, too: with fewer digits there would be a power of ten
between the two.
-/
namespace KernelForge.Decimal

theorem zpow_toNat {b : ℚ} (hb : b ≠ 0) (n : ℤ) : b ^ n.toNat = b ^ n * b ^ (-n).toNat := by
  obtain ⟨k, rfl | rfl⟩ := n.eq_nat_or_neg
  · simp
  · have hback : (-(-(k : ℤ))).toNat = k := by omega
    rw [hback, zpow_neg, zpow_natCast, inv_mul_cancel₀ (pow_ne_zero k hb)]
    simp

namespace Interval

/-- A number lies between the ends. -/
def Holds (i : Interval) (x : ℚ) : Prop :=
  if i.closed then i.low * 2 ^ i.unit ≤ x ∧ x ≤ i.high * 2 ^ i.unit
  else i.low * 2 ^ i.unit < x ∧ x < i.high * 2 ^ i.unit

/-- The value between the ends. -/
def centre (i : Interval) : ℚ := i.value * 2 ^ i.unit

/-- The ends lie on either side of the value. -/
structure Proper (i : Interval) : Prop where
  low_pos : 0 < i.low
  low_lt : i.low < i.value
  lt_high : i.value < i.high

variable {i : Interval}

theorem Holds.bounds {x : ℚ} (h : i.Holds x) :
    i.low * 2 ^ i.unit ≤ x ∧ x ≤ i.high * 2 ^ i.unit := by
  rw [Holds] at h
  split_ifs at h
  · exact h
  · exact ⟨h.1.le, h.2.le⟩

theorem Holds.between {x y z : ℚ} (hx : i.Holds x) (hz : i.Holds z) (hxy : x ≤ y) (hyz : y ≤ z) :
    i.Holds y := by
  rw [Holds] at hx hz ⊢
  split_ifs at hx hz ⊢
  · exact ⟨hx.1.trans hxy, hyz.trans hz.2⟩
  · exact ⟨hx.1.trans_le hxy, hyz.trans_lt hz.2⟩

theorem Proper.holds_centre (h : i.Proper) : i.Holds i.centre := by
  have hunit : (0 : ℚ) < 2 ^ i.unit := by positivity
  have hlow : (i.low : ℚ) * 2 ^ i.unit < i.centre :=
    mul_lt_mul_of_pos_right (by exact_mod_cast h.low_lt) hunit
  have hhigh : i.centre < i.high * 2 ^ i.unit :=
    mul_lt_mul_of_pos_right (by exact_mod_cast h.lt_high) hunit
  rw [Holds]
  split_ifs
  · exact ⟨hlow.le, hhigh.le⟩
  · exact ⟨hlow, hhigh⟩

theorem Proper.pos (h : i.Proper) {x : ℚ} (hx : i.Holds x) : 0 < x := by
  have hlow : (0 : ℚ) < i.low * 2 ^ i.unit := by
    have := h.low_pos
    positivity
  exact hlow.trans_le hx.bounds.1

/-! ## Grids -/

/-- Units and steps of the grid, with a common factor that makes both natural. -/
theorem num_den (i : Interval) (place : ℤ) : ∃ c : ℚ, 0 < c ∧
    (i.num place : ℚ) = 2 ^ i.unit * c ∧ (i.den place : ℚ) = 10 ^ place * c := by
  refine ⟨2 ^ (-i.unit).toNat * 10 ^ (-place).toNat, by positivity, ?_, ?_⟩
  · rw [num]
    push_cast [Nat.pow_eq]
    rw [zpow_toNat (by norm_num) i.unit]
    ring
  · rw [den]
    push_cast [Nat.pow_eq]
    rw [zpow_toNat (by norm_num) place]
    ring

theorem den_pos (i : Interval) (place : ℤ) : 0 < i.den place := by
  obtain ⟨c, hc, -, hden⟩ := i.num_den place
  have hpos : (0 : ℚ) < i.den place := by
    rw [hden]
    positivity
  exact_mod_cast hpos

theorem contains_iff (place : ℤ) (d : ℕ) :
    i.contains place d = true ↔ i.Holds (d * 10 ^ place) := by
  obtain ⟨c, hc, hnum, hden⟩ := i.num_den place
  have hle : ∀ a b : ℕ, a * i.num place ≤ b * i.den place ↔
      (a : ℚ) * 2 ^ i.unit ≤ b * 10 ^ place := by
    intro a b
    rw [← Nat.cast_le (α := ℚ), Nat.cast_mul, Nat.cast_mul, hnum, hden, ← mul_assoc, ← mul_assoc,
      mul_le_mul_iff_left₀ hc]
  have hge : ∀ a b : ℕ, a * i.den place ≤ b * i.num place ↔
      (a : ℚ) * 10 ^ place ≤ b * 2 ^ i.unit := by
    intro a b
    rw [← Nat.cast_le (α := ℚ), Nat.cast_mul, Nat.cast_mul, hnum, hden, ← mul_assoc, ← mul_assoc,
      mul_le_mul_iff_left₀ hc]
  rw [contains, Holds]
  split_ifs
  · rw [Bool.and_eq_true, decide_eq_true_iff, decide_eq_true_iff, hle, hge]
  · rw [Bool.and_eq_true, decide_eq_true_iff, decide_eq_true_iff, ← not_le, ← not_le, hge, hle,
      not_le, not_le]

/-- The grid point below the value, from which the next one is too far. -/
theorem below_spec (i : Interval) (place : ℤ) :
    let below := i.value * i.num place / i.den place
    (below : ℚ) * 10 ^ place ≤ i.centre ∧ i.centre < ((below + 1 : ℕ) : ℚ) * 10 ^ place := by
  obtain ⟨c, hc, hnum, hden⟩ := i.num_den place
  have hle : ((i.value * i.num place / i.den place : ℕ) : ℚ) * i.den place ≤
      i.value * i.num place := by
    exact_mod_cast Nat.div_mul_le_self _ _
  have hlt : (i.value : ℚ) * i.num place <
      ((i.value * i.num place / i.den place + 1 : ℕ) : ℚ) * i.den place := by
    exact_mod_cast Nat.lt_mul_of_div_lt (Nat.lt_succ_self _) (i.den_pos place)
  rw [hnum, hden, ← mul_assoc, ← mul_assoc] at hle hlt
  exact ⟨le_of_mul_le_mul_right hle hc, lt_of_mul_lt_mul_right hlt hc.le⟩

theorem holds_of_onGrid {place : ℤ} {d : ℕ} (h : i.onGrid place = some d) :
    i.Holds (d * 10 ^ place) := by
  rw [onGrid] at h
  rw [← contains_iff]
  split at h
  · rename_i hbelow habove
    split_ifs at h <;> obtain rfl := Option.some.inj h
    · exact hbelow
    · exact habove
  · rename_i hbelow _
    obtain rfl := Option.some.inj h
    exact hbelow
  · rename_i _ habove
    obtain rfl := Option.some.inj h
    exact habove
  · cases h

/-- A grid meets the interval only next to the value. -/
theorem Proper.not_holds_of_onGrid (hi : i.Proper) {place : ℤ} (h : i.onGrid place = none) (d : ℕ) :
    ¬ i.Holds (d * 10 ^ place) := by
  intro hd
  have hcentre := hi.holds_centre
  have hstep : (0 : ℚ) < 10 ^ place := by positivity
  obtain ⟨hbelow, habove⟩ := i.below_spec place
  have hmiss : i.contains place (i.value * i.num place / i.den place) = false ∧
      i.contains place (i.value * i.num place / i.den place + 1) = false := by
    rw [onGrid] at h
    split at h
    · split_ifs at h
    · cases h
    · cases h
    · rename_i h₁ h₂
      exact ⟨h₁, h₂⟩
  rcases Nat.lt_or_ge (i.value * i.num place / i.den place) d with hlt | hge
  · have hle : ((i.value * i.num place / i.den place + 1 : ℕ) : ℚ) * 10 ^ place ≤ d * 10 ^ place :=
      mul_le_mul_of_nonneg_right (by exact_mod_cast hlt) hstep.le
    have hholds := hcentre.between hd habove.le hle
    rw [← contains_iff, hmiss.2] at hholds
    cases hholds
  · have hle : (d : ℚ) * 10 ^ place ≤ (i.value * i.num place / i.den place : ℕ) * 10 ^ place :=
      mul_le_mul_of_nonneg_right (by exact_mod_cast hge) hstep.le
    have hholds := hd.between hcentre hle hbelow
    rw [← contains_iff, hmiss.1] at hholds
    cases hholds

/-! ## The first grid -/

/-- The value lies on the last grid. -/
theorem centre_on_bottom (i : Interval) :
    ((i.value * i.num i.bottomPlace / i.den i.bottomPlace : ℕ) : ℚ) * 10 ^ i.bottomPlace =
      i.centre := by
  have hexact : ∃ k : ℕ, i.value * i.num i.bottomPlace = k * i.den i.bottomPlace := by
    rcases le_total 0 i.unit with h | h
    · refine ⟨i.value * 2 ^ i.unit.toNat, ?_⟩
      have hback : (-i.unit).toNat = 0 := by omega
      simp [bottomPlace, num, den, min_eq_right h, hback, Nat.pow_eq]
    · refine ⟨i.value * 5 ^ (-i.unit).toNat, ?_⟩
      have hfront : i.unit.toNat = 0 := by omega
      have hten : (10 : ℕ) ^ (-i.unit).toNat = 5 ^ (-i.unit).toNat * 2 ^ (-i.unit).toNat := by
        rw [← Nat.mul_pow]
      simp [bottomPlace, num, den, min_eq_left h, hfront, Nat.pow_eq, hten, mul_assoc]
  obtain ⟨k, hk⟩ := hexact
  obtain ⟨c, hc, hnum, hden⟩ := i.num_den i.bottomPlace
  rw [hk, Nat.mul_div_cancel _ (i.den_pos _), centre]
  have hrat : (i.value : ℚ) * i.num i.bottomPlace = k * i.den i.bottomPlace := by exact_mod_cast hk
  rw [hnum, hden, ← mul_assoc, ← mul_assoc] at hrat
  exact (mul_right_cancel₀ hc.ne' hrat).symm

theorem Proper.holds_firstHit (hi : i.Proper) (steps : ℕ) (place : ℤ)
    (hlast : place - steps = i.bottomPlace) : i.Holds (i.firstHit steps place).value := by
  induction steps generalizing place with
  | zero =>
    obtain rfl : place = i.bottomPlace := by simpa using hlast
    rw [firstHit, Scaled.value, centre_on_bottom]
    exact hi.holds_centre
  | succ steps ih =>
    rw [firstHit]
    cases hgrid : i.onGrid place with
    | none => exact ih (place - 1) (by push_cast at hlast; omega)
    | some d => exact holds_of_onGrid hgrid

/-- The grids that were passed do not meet the interval. -/
theorem Proper.firstHit_coarsest (hi : i.Proper) (steps : ℕ) (top : ℤ) {place : ℤ}
    (hlow : (i.firstHit steps top).place < place) (hhigh : place ≤ top) (d : ℕ) :
    ¬ i.Holds (d * 10 ^ place) := by
  induction steps generalizing top with
  | zero =>
    rw [firstHit] at hlow
    exact absurd hhigh (not_le.mpr hlow)
  | succ steps ih =>
    rw [firstHit] at hlow
    cases hgrid : i.onGrid top with
    | some d =>
      rw [hgrid] at hlow
      exact absurd hhigh (not_le.mpr hlow)
    | none =>
      rw [hgrid] at hlow
      rcases eq_or_lt_of_le hhigh with rfl | hlt
      · exact hi.not_holds_of_onGrid hgrid d
      · exact ih (top - 1) hlow (by omega)

/-! ## Above all grids -/

/-- Powers are compared by one pair of powers of their bases. -/
theorem pow_le_pow_of_base {a b x y k n : ℕ} (hbase : a ^ x ≤ b ^ y) (hx : x ≠ 0) (hb : 0 < b)
    (h : y * k ≤ n * x) : a ^ k ≤ b ^ n := by
  have hpow : (a ^ k) ^ x ≤ (b ^ n) ^ x := by
    calc (a ^ k) ^ x = (a ^ x) ^ k := by rw [← pow_mul, ← pow_mul, mul_comm]
      _ ≤ (b ^ y) ^ k := Nat.pow_le_pow_left hbase k
      _ = b ^ (y * k) := by rw [← pow_mul]
      _ ≤ b ^ (n * x) := Nat.pow_le_pow_right hb h
      _ = (b ^ n) ^ x := by rw [← pow_mul]
  exact (Nat.pow_le_pow_iff_left hx).mp hpow

theorem ten_pow_le_two_pow {k n : ℕ} (h : 100000 * k ≤ 30102 * n) : 10 ^ k ≤ 2 ^ n :=
  pow_le_pow_of_base (x := 59) (y := 196) (by norm_num) (by decide) (by decide) (by omega)

theorem two_pow_le_ten_pow {k n : ℕ} (h : 30103 * n ≤ 100000 * k) : 2 ^ n ≤ 10 ^ k :=
  pow_le_pow_of_base (x := 13301) (y := 4004) (by decide +kernel) (by decide) (by decide) (by omega)

/-- The two ratios lie below and above the logarithm of two to the base ten. -/
theorem high_lt_top (i : Interval) : i.high * 2 ^ i.unit < (10 : ℚ) ^ i.topPlace := by
  have hhigh : (i.high : ℚ) < 2 ^ (i.high.log2 + 1) := by exact_mod_cast Nat.lt_log2_self
  have hbits : (i.high : ℚ) * 2 ^ i.unit < 2 ^ ((i.high.log2 : ℤ) + 1 + i.unit) := by
    rw [zpow_add₀ (by norm_num)]
    exact mul_lt_mul_of_pos_right (by exact_mod_cast hhigh) (by positivity)
  refine hbits.trans_le ?_
  rw [topPlace]
  generalize (i.high.log2 : ℤ) + 1 + i.unit = bits
  split_ifs with h
  · obtain ⟨n, rfl⟩ : ∃ n : ℕ, bits = -(n : ℤ) := ⟨(-bits).toNat, by omega⟩
    obtain ⟨k, hk⟩ : ∃ k : ℕ, -(-(n : ℤ)) * 30102 / 100000 = k :=
      ⟨(-(-(n : ℤ)) * 30102 / 100000).toNat, by omega⟩
    rw [hk, zpow_neg, zpow_neg, zpow_natCast, zpow_natCast]
    exact inv_anti₀ (by positivity) (by exact_mod_cast ten_pow_le_two_pow (k := k) (by omega))
  · obtain ⟨n, rfl⟩ : ∃ n : ℕ, bits = (n : ℤ) := ⟨bits.toNat, by omega⟩
    obtain ⟨k, hk⟩ : ∃ k : ℕ, (n : ℤ) * 30103 / 100000 + 1 = k :=
      ⟨((n : ℤ) * 30103 / 100000 + 1).toNat, by omega⟩
    rw [hk, zpow_natCast, zpow_natCast]
    exact_mod_cast two_pow_le_ten_pow (k := k) (by omega)

theorem bottom_le_top (i : Interval) : i.bottomPlace ≤ i.topPlace := by
  rw [bottomPlace, topPlace]
  split_ifs <;> omega

/-! ## The shortest decimal -/

variable (hi : i.Proper)
include hi

theorem Proper.holds_shortest : i.Holds i.shortest.value :=
  hi.holds_firstHit _ _ (by have := i.bottom_le_top; omega)

theorem Proper.shortest_coarsest {place : ℤ} (h : i.shortest.place < place) (d : ℕ) :
    ¬ i.Holds (d * 10 ^ place) := by
  rcases le_or_gt place i.topPlace with hle | hgt
  · exact hi.firstHit_coarsest _ _ h hle d
  · -- the grid has no point between zero and the upper end
    intro hd
    have hpos := hi.pos hd
    have hone : (1 : ℚ) ≤ d := by
      rcases Nat.eq_zero_or_pos d with rfl | h
      · simp at hpos
      · exact_mod_cast h
    have htop : (10 : ℚ) ^ i.topPlace ≤ 10 ^ place := zpow_le_zpow_right₀ (by norm_num) hgt.le
    have hpoint : (10 : ℚ) ^ place ≤ d * 10 ^ place := le_mul_of_one_le_left (by positivity) hone
    have hend := hd.bounds.2
    have hhigh := i.high_lt_top
    linarith

/-- No decimal of the interval has fewer digits. -/
theorem Proper.shortest_length_le {d : Scaled} (hd : i.Holds d.value) :
    (digitChars i.shortest.digits).length ≤ (digitChars d.digits).length := by
  by_contra hlt
  have hplace : d.place ≤ i.shortest.place := by
    by_contra hgt
    exact hi.shortest_coarsest (not_le.mp hgt) d.digits hd
  have hpos : 0 < (digitChars d.digits).length := Nat.length_toDigits_pos
  have hfew : d.digits < 10 ^ (digitChars d.digits).length :=
    (Nat.length_toDigits_le_iff (by decide) hpos).mp le_rfl
  have hmany : 10 ^ (digitChars d.digits).length ≤ i.shortest.digits := by
    by_contra h
    exact hlt ((Nat.length_toDigits_le_iff (by decide) hpos).mpr (not_le.mp h))
  -- a power of ten lies between the two, and it lies on a coarser grid
  generalize (digitChars d.digits).length = n at hpos hfew hmany
  have hpower : ((1 : ℕ) : ℚ) * 10 ^ (i.shortest.place + n) =
      (10 ^ n : ℕ) * 10 ^ i.shortest.place := by
    rw [zpow_add₀ (by norm_num), zpow_natCast]
    push_cast
    ring
  have hcoarser : i.shortest.place < i.shortest.place + n := by omega
  refine hi.shortest_coarsest hcoarser 1 ?_
  rw [hpower]
  refine hd.between hi.holds_shortest ?_ ?_
  · have hfew' : (d.digits : ℚ) ≤ (10 ^ n : ℕ) := by exact_mod_cast hfew.le
    exact mul_le_mul hfew' (zpow_le_zpow_right₀ (by norm_num) hplace) (by positivity)
      (by positivity)
  · exact mul_le_mul_of_nonneg_right (by exact_mod_cast hmany) (by positivity)

end Interval

end KernelForge.Decimal

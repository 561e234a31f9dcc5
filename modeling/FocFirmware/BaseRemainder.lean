import Mathlib.Algebra.BigOperators.Field
import Mathlib.Algebra.Order.BigOperators.Group.Finset
import Mathlib.Algebra.Order.Floor.Ring
import Mathlib.Data.Rat.Floor
import Mathlib.Tactic.FieldSimp
import Mathlib.Tactic.Linarith
import Mathlib.Tactic.NormNum
import Mathlib.Tactic.Ring

/-! The truncated remainder of C and closeness on a circle. `fmod` keeps the sign of its first
argument; adding one period to a negative remainder gives the representative in `[0, p)`. Two
numbers are near modulo `p` when some whole number of periods brings them within a distance. -/

namespace FocFirmware.Remainder

variable {K : Type*} [Field K] [LinearOrder K]

/-- `x` and `y` are at most `d` apart on the circle of circumference `p`. -/
def NearMod (p d x y : K) : Prop := ∃ n : ℤ, |x - y - n * p| ≤ d

namespace NearMod

variable {p d e x y z : K}

theorem of_abs_sub_le (h : |x - y| ≤ d) : NearMod p d x y := ⟨0, by simpa using h⟩

variable [IsStrictOrderedRing K]

theorem trans (hxy : NearMod p d x y) (hyz : NearMod p e y z) : NearMod p (d + e) x z := by
  obtain ⟨m, hm⟩ := hxy
  obtain ⟨n, hn⟩ := hyz
  refine ⟨m + n, ?_⟩
  calc |x - z - ((m + n : ℤ) : K) * p| = |(x - y - m * p) + (y - z - n * p)| := by
        push_cast
        ring_nf
    _ ≤ d + e := (abs_add_le _ _).trans (add_le_add hm hn)

end NearMod

section Periods

variable [IsStrictOrderedRing K] {p : K} {m n : ℤ}

theorem lt_of_periods_lt (hp : 0 < p) (h : (m : K) * p < n * p) : m < n := by
  exact_mod_cast lt_of_mul_lt_mul_right h hp.le

/-- Whole numbers of periods less than one period apart are the same. -/
theorem eq_of_periods_near (hp : 0 < p) (h : |((m : K) - n) * p| < p) : m = n := by
  obtain ⟨hlow, hhigh⟩ := abs_lt.mp h
  have hmn : m < n + 1 := by
    apply lt_of_periods_lt hp
    push_cast
    linarith
  have hnm : n < m + 1 := by
    apply lt_of_periods_lt hp
    push_cast
    linarith
  omega

end Periods

section Mean

variable [IsStrictOrderedRing K]

/-- A mean is as near to a point as the numbers it is taken of. -/
theorem abs_mean_sub_le {n : ℕ} (hn : 0 < n) {x : ℕ → K} {c d : K} (h : ∀ i < n, |x i - c| ≤ d) :
    |(∑ i ∈ Finset.range n, x i) / n - c| ≤ d := by
  have hpos : (0 : K) < n := by exact_mod_cast hn
  have hsplit : (∑ i ∈ Finset.range n, x i) / n - c = (∑ i ∈ Finset.range n, (x i - c)) / n := by
    rw [Finset.sum_sub_distrib, Finset.sum_const, Finset.card_range, nsmul_eq_mul]
    field_simp
  rw [hsplit, abs_div, abs_of_pos hpos, div_le_iff₀ hpos]
  calc |∑ i ∈ Finset.range n, (x i - c)| ≤ ∑ i ∈ Finset.range n, |x i - c| := Finset.abs_sum_le_sum_abs _ _
    _ ≤ ∑ _i ∈ Finset.range n, d := Finset.sum_le_sum fun i hi => h i (Finset.mem_range.mp hi)
    _ = d * n := by rw [Finset.sum_const, Finset.card_range, nsmul_eq_mul, mul_comm]

end Mean

/-! ### The remainder and its correction -/

variable [FloorRing K]

/-- The conversion of a real number to an integer in C: towards zero. -/
def truncToInt (x : K) : ℤ := if 0 ≤ x then ⌊x⌋ else ⌈x⌉

/-- The remainder of C's `fmod`. -/
def fmod (x y : K) : K := x - truncToInt (x / y) * y

theorem truncToInt_of_nonneg {x : K} (hx : 0 ≤ x) : truncToInt x = ⌊x⌋ := if_pos hx

theorem truncToInt_of_neg {x : K} (hx : x < 0) : truncToInt x = ⌈x⌉ := if_neg hx.not_ge

theorem fract_scaled_eq {p : K} (hp : 0 < p) (x : K) : p * Int.fract (x / p) = x - ⌊x / p⌋ * p := by
  rw [Int.fract]
  field_simp

variable [IsStrictOrderedRing K]

theorem truncToInt_neg (x : K) : truncToInt (-x) = -truncToInt x := by
  rcases lt_trichotomy x 0 with hx | rfl | hx
  · rw [truncToInt_of_neg hx, truncToInt_of_nonneg (by linarith), Int.floor_neg]
  · simp [truncToInt]
  · rw [truncToInt_of_nonneg hx.le, truncToInt_of_neg (by linarith), Int.ceil_neg]

/-- Truncation moves a number by at most one, and towards zero. -/
theorem abs_sub_truncToInt_le (x : K) : |x - truncToInt x| ≤ 1 := by
  rcases le_or_gt 0 x with hx | hx
  · rw [truncToInt_of_nonneg hx, abs_of_nonneg (sub_nonneg.mpr (Int.floor_le x))]
    linarith [Int.lt_floor_add_one x]
  · rw [truncToInt_of_neg hx, abs_of_nonpos (sub_nonpos.mpr (Int.le_ceil x))]
    linarith [Int.ceil_lt_add_one x]

theorem abs_truncToInt_le (x : K) : |(truncToInt x : K)| ≤ |x| := by
  rcases le_or_gt 0 x with hx | hx
  · have hfloor : (0 : K) ≤ ⌊x⌋ := by exact_mod_cast Int.floor_nonneg.mpr hx
    rw [truncToInt_of_nonneg hx, abs_of_nonneg hfloor, abs_of_nonneg hx]
    exact Int.floor_le x
  · have hceil : (⌈x⌉ : K) ≤ 0 := by exact_mod_cast Int.ceil_le.mpr (by simpa using hx.le)
    rw [truncToInt_of_neg hx, abs_of_nonpos hceil, abs_of_neg hx]
    exact neg_le_neg (Int.le_ceil x)

theorem fmod_of_nonneg {x p : K} (hp : 0 < p) (hx : 0 ≤ x) : fmod x p = p * Int.fract (x / p) := by
  rw [fmod, truncToInt_of_nonneg (div_nonneg hx hp.le), Int.fract]
  field_simp

theorem fmod_of_neg {x p : K} (hp : 0 < p) (hx : x < 0) : fmod x p = -(p * Int.fract (-x / p)) := by
  have hodd : fmod x p = -fmod (-x) p := by
    rw [fmod, fmod, neg_div, truncToInt_neg]
    push_cast
    ring
  rw [hodd, fmod_of_nonneg hp (by linarith)]

/-- A remainder with one period added when it is negative is the representative in `[0, p)`. -/
theorem fmod_corrected {p : K} (hp : 0 < p) (x : K) :
    (if 0 ≤ fmod x p then fmod x p else fmod x p + p) = p * Int.fract (x / p) := by
  rcases le_or_gt 0 x with hx | hx
  · rw [fmod_of_nonneg hp hx, if_pos (mul_nonneg hp.le (Int.fract_nonneg _))]
  · rw [fmod_of_neg hp hx]
    by_cases hzero : Int.fract (-x / p) = 0
    · have hback : Int.fract (x / p) = 0 := by
        rwa [neg_div, Int.fract_neg_eq_zero] at hzero
      simp [hzero, hback]
    · have hpos : 0 < p * Int.fract (-x / p) := mul_pos hp (lt_of_le_of_ne (Int.fract_nonneg _) (Ne.symm hzero))
      have hback : Int.fract (x / p) = 1 - Int.fract (-x / p) := by
        rw [← Int.fract_neg hzero, neg_div, neg_neg]
      rw [if_neg (by linarith), hback]
      ring

theorem fract_scaled_mem {p : K} (hp : 0 < p) (x : K) :
    0 ≤ p * Int.fract (x / p) ∧ p * Int.fract (x / p) < p :=
  ⟨mul_nonneg hp.le (Int.fract_nonneg _), mul_lt_of_lt_one_right hp (Int.fract_lt_one _)⟩

/-- A whole number of periods does not change the representative. -/
theorem fract_scaled_add {p : K} (hp : 0 < p) (x : K) (n : ℤ) :
    p * Int.fract ((x + n * p) / p) = p * Int.fract (x / p) := by
  rw [add_div, mul_div_cancel_right₀ _ hp.ne', Int.fract_add_intCast]

theorem fract_scaled_of_mem {p x : K} (hp : 0 < p) (hlow : 0 ≤ x) (hhigh : x < p) :
    p * Int.fract (x / p) = x := by
  rw [Int.fract_eq_self.mpr ⟨div_nonneg hlow hp.le, (div_lt_one hp).mpr hhigh⟩]
  field_simp

end FocFirmware.Remainder

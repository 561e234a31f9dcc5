import Mathlib.Algebra.BigOperators.Intervals
import Mathlib.Algebra.Order.BigOperators.Group.Finset
import Mathlib.Algebra.Order.Field.Basic
import Mathlib.Data.Nat.Choose.Sum
import Mathlib.Data.Rat.BigOperators
import Mathlib.Data.Rat.Cast.Order
import Mathlib.Tactic.FieldSimp
import Mathlib.Tactic.Linarith
import Mathlib.Tactic.LinearCombination
import Mathlib.Tactic.Positivity
import Mathlib.Tactic.Ring

/-! Bounds of a polynomial on an interval from its Bernstein coefficients. A polynomial on `[0, T]` is a
weighted mean of finitely many rational numbers, so a bound on these is a bound on the polynomial. -/

namespace FocFirmware.Bernstein

open Finset

section Basis

variable {K : Type*} [Field K]

/-- The weight of the `k`-th coefficient at `s`. -/
def basis (n k : ℕ) (s : K) : K := n.choose k * s ^ k * (1 - s) ^ (n - k)

theorem sum_basis (n : ℕ) (s : K) : ∑ k ∈ range (n + 1), basis n k s = 1 := by
  have hbinomial := add_pow s (1 - s) n
  rw [add_sub_cancel, one_pow] at hbinomial
  rw [hbinomial]
  apply sum_congr rfl
  intro k _
  rw [basis]
  ring

/-- The binomial coefficients over `j` are the Bernstein coefficients of the `j`-th power, up to scale. -/
theorem sum_choose_basis (j m : ℕ) (s : K) :
    ∑ k ∈ range (j + m + 1), (k.choose j : K) * basis (j + m) k s = (j + m).choose j * s ^ j := by
  have hlow : ∑ k ∈ range j, (k.choose j : K) * basis (j + m) k s = 0 := by
    apply sum_eq_zero
    intro k hk
    rw [Nat.choose_eq_zero_of_lt (mem_range.mp hk), Nat.cast_zero, zero_mul]
  have hhigh : ∀ k, ((j + k).choose j : K) * basis (j + m) (j + k) s =
      (j + m).choose j * s ^ j * basis m k s := by
    intro k
    have hchoose : ((j + m).choose (j + k) * (j + k).choose j : K) = (j + m).choose j * m.choose k := by
      have hnat := Nat.choose_mul (n := j + m) (Nat.le_add_right j k)
      rw [Nat.add_sub_cancel_left, Nat.add_sub_cancel_left] at hnat
      have hcast := congrArg (Nat.cast (R := K)) hnat
      push_cast at hcast
      exact hcast
    have hexp : j + m - (j + k) = m - k := by omega
    rw [basis, basis, hexp, pow_add]
    linear_combination s ^ j * s ^ k * (1 - s) ^ (m - k) * hchoose
  rw [Nat.add_assoc, sum_range_add, hlow, zero_add, sum_congr rfl fun k _ => hhigh k, ← mul_sum, sum_basis, mul_one]

end Basis

/-- The polynomial with rational coefficients `c 0, …, c n` at `t`. -/
def evalPoly {K : Type*} [Field K] (c : ℕ → ℚ) (n : ℕ) (t : K) : K := ∑ j ∈ range (n + 1), (c j : K) * t ^ j

/-- The `k`-th Bernstein coefficient on `[0, T]`. -/
def coefficient (c : ℕ → ℚ) (n : ℕ) (T : ℚ) (k : ℕ) : ℚ :=
  ∑ j ∈ range (n + 1), (k.choose j : ℚ) / n.choose j * (c j * T ^ j)

section Bound

variable {K : Type*} [Field K] [LinearOrder K] [IsStrictOrderedRing K]

theorem basis_nonneg {s : K} (h0 : 0 ≤ s) (h1 : s ≤ 1) (n k : ℕ) : 0 ≤ basis n k s := by
  have hs : 0 ≤ 1 - s := sub_nonneg.mpr h1
  rw [basis]
  positivity

theorem evalPoly_eq_sum_basis (c : ℕ → ℚ) (n : ℕ) {T : ℚ} (hT : 0 < T) (t : K) :
    evalPoly c n t = ∑ k ∈ range (n + 1), (coefficient c n T k : K) * basis n k (t / T) := by
  have hterm : ∀ j ∈ range (n + 1), (c j : K) * t ^ j =
      ∑ k ∈ range (n + 1), ((k.choose j : ℚ) / n.choose j * (c j * T ^ j) : ℚ) * basis n k (t / T) := by
    intro j hj
    obtain ⟨m, rfl⟩ := Nat.exists_eq_add_of_le (Nat.lt_succ_iff.mp (mem_range.mp hj))
    have hchoose : ((j + m).choose j : K) ≠ 0 := by
      exact_mod_cast (Nat.choose_pos (Nat.le_add_right j m)).ne'
    have hTK : (T : K) ≠ 0 := by exact_mod_cast hT.ne'
    calc (c j : K) * t ^ j = c j * T ^ j / (j + m).choose j * ((j + m).choose j * (t / T) ^ j) := by
          rw [div_pow]
          field_simp
      _ = ∑ k ∈ range (j + m + 1), ((k.choose j : ℚ) / (j + m).choose j * (c j * T ^ j) : ℚ) *
          basis (j + m) k (t / T) := by
          rw [← sum_choose_basis, mul_sum]
          apply sum_congr rfl
          intro k _
          push_cast
          ring
  rw [evalPoly, sum_congr rfl hterm, sum_comm]
  apply sum_congr rfl
  intro k _
  rw [coefficient, Rat.cast_sum, sum_mul]

/-- **The Bernstein bound.** -/
theorem abs_evalPoly_le {c : ℕ → ℚ} {n : ℕ} {T B : ℚ} (hT : 0 < T) (hB : ∀ k < n + 1, |coefficient c n T k| ≤ B)
    {t : K} (h0 : 0 ≤ t) (h1 : t ≤ T) : |evalPoly c n t| ≤ B := by
  have hTK : (0 : K) < T := by exact_mod_cast hT
  have hs0 : 0 ≤ t / T := div_nonneg h0 hTK.le
  have hs1 : t / T ≤ 1 := (div_le_one hTK).mpr h1
  calc |evalPoly c n t| ≤ ∑ k ∈ range (n + 1), |(coefficient c n T k : K) * basis n k (t / T)| := by
        rw [evalPoly_eq_sum_basis c n hT]
        exact abs_sum_le_sum_abs _ _
    _ ≤ ∑ k ∈ range (n + 1), (B : K) * basis n k (t / T) := by
        apply sum_le_sum
        intro k hk
        rw [abs_mul, abs_of_nonneg (basis_nonneg hs0 hs1 n k)]
        apply mul_le_mul_of_nonneg_right _ (basis_nonneg hs0 hs1 n k)
        exact_mod_cast hB k (mem_range.mp hk)
    _ = B := by rw [← mul_sum, sum_basis, mul_one]

end Bound

end FocFirmware.Bernstein

import Mathlib.Algebra.BigOperators.Intervals
import Mathlib.Algebra.BigOperators.Ring.Finset
import Mathlib.Algebra.Order.Field.Basic
import Mathlib.Tactic.Linarith
import Mathlib.Tactic.NormNum
import Mathlib.Tactic.Ring

/-! A first-order recursive filter: each output moves from the last one towards the input by a fixed
share. Its outputs are weighted sums of the inputs, and they stay inside any open interval around
zero that holds the inputs. -/

namespace FocFirmware.LowPass

open Finset

variable {K : Type*} [Field K]

def smooth (α filtered input : K) : K := filtered + α * (input - filtered)

/-- The outputs from rest, input `i` being the one that leads from output `i` to output `i + 1`. -/
def response (α : K) (input : ℕ → K) : ℕ → K
  | 0 => 0
  | n + 1 => smooth α (response α input n) (input n)

/-- The response is a weighted sum that forgets an input by one factor a step. -/
theorem response_eq_sum (α : K) (input : ℕ → K) (n : ℕ) :
    response α input n = ∑ i ∈ range n, α * (1 - α) ^ (n - 1 - i) * input i := by
  induction n with
  | zero => simp [response]
  | succ n ih =>
      rw [response, smooth, ih, sum_range_succ, Nat.add_sub_cancel, Nat.sub_self, pow_zero, mul_one]
      have hage : ∑ i ∈ range n, α * (1 - α) ^ (n - i) * input i =
          (1 - α) * ∑ i ∈ range n, α * (1 - α) ^ (n - 1 - i) * input i := by
        rw [mul_sum]
        apply sum_congr rfl
        intro i hi
        have hexp : n - i = n - 1 - i + 1 := by
          have := mem_range.mp hi
          omega
        rw [hexp, pow_succ]
        ring
      rw [hage]
      ring

/-- The same sum with the inputs numbered by the step they enter in. -/
theorem response_eq_sum_Icc (α : K) (input : ℕ → K) (n : ℕ) :
    response α (fun i => input (i + 1)) n = ∑ i ∈ Icc 1 n, α * (1 - α) ^ (n - i) * input i := by
  rw [response_eq_sum, range_eq_Ico, ← Ico_add_one_right_eq_Icc, ← sum_Ico_add' _ 0 n 1]
  apply sum_congr rfl
  intro i _
  rw [Nat.sub_sub, Nat.add_comm 1 i]

variable [LinearOrder K] [IsStrictOrderedRing K]

theorem smooth_abs_lt {α filtered input bound : K} (h0 : 0 < α) (h1 : α < 1) (hf : |filtered| < bound)
    (hi : |input| < bound) : |smooth α filtered input| < bound := by
  rw [abs_lt] at hf hi ⊢
  rw [smooth, show filtered + α * (input - filtered) = (1 - α) * filtered + α * input by ring]
  have hβ : 0 < 1 - α := by linarith
  constructor
  · linarith [mul_lt_mul_of_pos_left hf.1 hβ, mul_lt_mul_of_pos_left hi.1 h0]
  · linarith [mul_lt_mul_of_pos_left hf.2 hβ, mul_lt_mul_of_pos_left hi.2 h0]

theorem response_abs_lt {α bound : K} (h0 : 0 < α) (h1 : α < 1) (hb : 0 < bound) (input : ℕ → K) (n : ℕ)
    (hin : ∀ i < n, |input i| < bound) : |response α input n| < bound := by
  induction n with
  | zero => simpa [response] using hb
  | succ n ih =>
      rw [response]
      exact smooth_abs_lt h0 h1 (ih fun i hi => hin i (by omega)) (hin n (by omega))

end FocFirmware.LowPass

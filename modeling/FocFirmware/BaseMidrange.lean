import Mathlib.Algebra.Order.Group.MinMax
import Mathlib.Tactic.Linarith
import Mathlib.Tactic.Ring

/-! Three numbers known by their differences and by the sum of the largest and the smallest of them. The
injection of a zero sequence into three phases fixes that sum, so each phase is a continuous function of
the differences. -/

namespace FocFirmware.Midrange

section Order

variable {K : Type*} [LinearOrder K] {a b c : K}

theorem max_min_rotate (a b c : K) :
    max b (max c a) = max a (max b c) ∧ min b (min c a) = min a (min b c) := by
  refine ⟨?_, ?_⟩
  · rw [max_comm c a, max_left_comm]
  · rw [min_comm c a, min_left_comm]

/-- Where one number is an upper bound that is attained and another a lower one, these are the extremes. -/
theorem max_min_eq {low high : K} (hle : ∀ x ∈ [a, b, c], low ≤ x ∧ x ≤ high) (hhigh : high ∈ [a, b, c])
    (hlow : low ∈ [a, b, c]) : max a (max b c) = high ∧ min a (min b c) = low := by
  simp only [List.mem_cons, List.not_mem_nil, or_false, forall_eq_or_imp, forall_eq] at hle hhigh hlow
  obtain ⟨⟨ha1, ha2⟩, ⟨hb1, hb2⟩, hc1, hc2⟩ := hle
  refine ⟨le_antisymm (max_le ha2 (max_le hb2 hc2)) ?_, le_antisymm ?_ (le_min ha1 (le_min hb1 hc1))⟩
  · rcases hhigh with rfl | rfl | rfl <;> simp
  · rcases hlow with rfl | rfl | rfl <;> simp

end Order

section Pull

variable {K : Type*} [Field K] [LinearOrder K]

/-- How far a number is pulled by the other two, seen from it: the largest and the smallest offset added. -/
def pull (x y : K) : K := max 0 (max x y) + min 0 (min x y)

variable [IsStrictOrderedRing K] {a b c : K}

/-- A number from the sum of the extremes and the two offsets to the others. -/
theorem two_mul_eq {s : K} (h : max a (max b c) + min a (min b c) = s) : 2 * a = s - pull (b - a) (c - a) := by
  have hmax : max 0 (max (b - a) (c - a)) = max a (max b c) - a := by
    rw [max_sub_sub_right, ← sub_self a, max_sub_sub_right]
  have hmin : min 0 (min (b - a) (c - a)) = min a (min b c) - a := by
    rw [min_sub_sub_right, ← sub_self a, min_sub_sub_right]
  rw [pull, hmax, hmin]
  linarith

theorem abs_pull_sub_le (x y x' y' : K) : |pull x y - pull x' y'| ≤ 2 * max |x - x'| |y - y'| := by
  have hzero : ∀ d : K, 0 ≤ d → max |(0 : K) - 0| d = d := by
    intro d hd
    rw [sub_self, abs_zero, max_eq_right hd]
  have hnonneg : 0 ≤ max |x - x'| |y - y'| := (abs_nonneg _).trans (le_max_left _ _)
  have hmax : |max 0 (max x y) - max 0 (max x' y')| ≤ max |x - x'| |y - y'| := by
    have hinner := (abs_max_sub_max_le_max 0 (max x y) 0 (max x' y')).trans
      (max_le_max le_rfl (abs_max_sub_max_le_max x y x' y'))
    rwa [hzero _ hnonneg] at hinner
  have hmin : |min 0 (min x y) - min 0 (min x' y')| ≤ max |x - x'| |y - y'| := by
    have hinner := (abs_min_sub_min_le_max 0 (min x y) 0 (min x' y')).trans
      (max_le_max le_rfl (abs_min_sub_min_le_max x y x' y'))
    rwa [hzero _ hnonneg] at hinner
  calc |pull x y - pull x' y'|
      = |max 0 (max x y) - max 0 (max x' y') + (min 0 (min x y) - min 0 (min x' y'))| := by
        rw [pull, pull]
        ring_nf
    _ ≤ max |x - x'| |y - y'| + max |x - x'| |y - y'| := (abs_add_le _ _).trans (add_le_add hmax hmin)
    _ = 2 * max |x - x'| |y - y'| := (two_mul _).symm

end Pull

end FocFirmware.Midrange

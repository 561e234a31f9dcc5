import FocFirmware.FocTransforms
import Mathlib.Tactic.LinearCombination

/-! The space-vector modulator of `SVPWM.c`. In all six sectors the switching times differ pairwise by the
three projections, shrunk together where they do not fit into the period. -/

namespace FocFirmware

section Model

variable {K : Type*} [Field K] [LinearOrder K]

/-- `SVpwm_State` without the counter `times`, which `SVpwm` does not touch. -/
structure SvpwmState (K : Type*) where
  ts : K
  sector : ℕ
  ta : K
  tb : K
  tc : K
  u1 : K
  u2 : K
  u3 : K
  t1 : K
  t2 : K
  t3 : K
  t4 : K
  t5 : K
  t6 : K
  t7 : K
  sum : K
  kSvpwm : K
  k : K

/-- The two dwell times of a sector and what `SVpwm` computes from them. -/
structure Dwell (K : Type*) where
  first : K
  second : K
  t7 : K
  sum : K
  kSvpwm : K

/-- The part of every sector that is the same: overmodulation, then the null vector's time. -/
def dwell (p : SvpwmState K) (first second : K) : Dwell K :=
  let sum := first + second
  if sum > p.ts then
    let kSvpwm := p.ts / sum
    let first := first * kSvpwm
    let second := second * kSvpwm
    ⟨first, second, (p.ts - first - second) / 2.0, sum, kSvpwm⟩
  else ⟨first, second, (p.ts - first - second) / 2.0, sum, p.kSvpwm⟩

/-- The sector number from the signs of the projections. -/
def sectorOf (u1 u2 u3 : K) : ℕ :=
  (if u1 > 0 then 1 else 0) + (if u2 > 0 then 1 else 0) <<< 1 + (if u3 > 0 then 1 else 0) <<< 2

/-- The projections and the sector. -/
def projectVector (gUdc uAlpha uBeta : K) (p : SvpwmState K) : SvpwmState K :=
  let k := focSqrt3 * p.ts / gUdc
  let u1 := uBeta * k
  let u2 := (focSqrt3 * uAlpha - foc1_2 * uBeta) * k
  let u3 := (-focSqrt3 * uAlpha - foc1_2 * uBeta) * k
  { p with k := k, u1 := u1, u2 := u2, u3 := u3, sector := sectorOf u1 u2 u3 }

/-- The `switch` over the sector. -/
def switchSector (p : SvpwmState K) : SvpwmState K :=
  match p.sector with
  | 3 =>
      let d := dwell p p.u2 p.u1
      { p with
        t4 := d.first, t6 := d.second, sum := d.sum, kSvpwm := d.kSvpwm, t7 := d.t7
        ta := d.first + d.second + d.t7, tb := d.second + d.t7, tc := d.t7 }
  | 1 =>
      let d := dwell p (-p.u2) (-p.u3)
      { p with
        t2 := d.first, t6 := d.second, sum := d.sum, kSvpwm := d.kSvpwm, t7 := d.t7
        ta := d.second + d.t7, tb := d.first + d.second + d.t7, tc := d.t7 }
  | 5 =>
      let d := dwell p p.u1 p.u3
      { p with
        t2 := d.first, t3 := d.second, sum := d.sum, kSvpwm := d.kSvpwm, t7 := d.t7
        ta := d.t7, tb := d.first + d.second + d.t7, tc := d.second + d.t7 }
  | 4 =>
      let d := dwell p (-p.u1) (-p.u2)
      { p with
        t1 := d.first, t3 := d.second, sum := d.sum, kSvpwm := d.kSvpwm, t7 := d.t7
        ta := d.t7, tb := d.second + d.t7, tc := d.first + d.second + d.t7 }
  | 6 =>
      let d := dwell p p.u3 p.u2
      { p with
        t1 := d.first, t5 := d.second, sum := d.sum, kSvpwm := d.kSvpwm, t7 := d.t7
        ta := d.second + d.t7, tb := d.t7, tc := d.first + d.second + d.t7 }
  | 2 =>
      let d := dwell p (-p.u3) (-p.u1)
      { p with
        t4 := d.first, t5 := d.second, sum := d.sum, kSvpwm := d.kSvpwm, t7 := d.t7
        ta := d.first + d.second + d.t7, tb := d.t7, tc := d.second + d.t7 }
  | _ => p

def svpwm (gUdc uAlpha uBeta : K) (p : SvpwmState K) : SvpwmState K :=
  switchSector (projectVector gUdc uAlpha uBeta p)

end Model

section Unified

variable {K : Type*} [Field K] [LinearOrder K]

/-- The factor by which a vector with dwell times of the given sum is shrunk to fit. -/
def shrink (ts sum : K) : K := min 1 (ts / sum)

/-- The largest of the three projections. -/
def largest (p : SvpwmState K) : K := max |p.u1| (max |p.u2| |p.u3|)

theorem largest_eq {p : SvpwmState K} {m : K} (hle : |p.u1| ≤ m ∧ |p.u2| ≤ m ∧ |p.u3| ≤ m)
    (hge : m ≤ |p.u1| ∨ m ≤ |p.u2| ∨ m ≤ |p.u3|) : largest p = m := by
  apply le_antisymm
  · exact max_le hle.1 (max_le hle.2.1 hle.2.2)
  · rcases hge with hge | hge | hge
    · exact hge.trans (le_max_left _ _)
    · exact hge.trans ((le_max_left _ _).trans (le_max_right _ _))
    · exact hge.trans ((le_max_right _ _).trans (le_max_right _ _))

variable [IsStrictOrderedRing K]

theorem dwell_scaled (p : SvpwmState K) {first second : K} (hpos : 0 < first + second) :
    (dwell p first second).first = shrink p.ts (first + second) * first ∧
      (dwell p first second).second = shrink p.ts (first + second) * second := by
  unfold dwell shrink
  by_cases hover : first + second > p.ts
  · have hle : p.ts / (first + second) ≤ 1 := (div_le_one hpos).mpr hover.le
    rw [if_pos hover, min_eq_right hle]
    exact ⟨mul_comm _ _, mul_comm _ _⟩
  · have hle : 1 ≤ p.ts / (first + second) := (one_le_div hpos).mpr (not_lt.mp hover)
    rw [if_neg hover, min_eq_left hle]
    exact ⟨(one_mul _).symm, (one_mul _).symm⟩

theorem largest_pos {p : SvpwmState K} (hne : ¬(p.u1 = 0 ∧ p.u2 = 0)) : 0 < largest p := by
  by_contra hle
  obtain ⟨h1, hrest⟩ := max_le_iff.mp (not_lt.mp hle)
  exact hne ⟨abs_nonpos_iff.mp h1, abs_nonpos_iff.mp ((le_max_left _ _).trans hrest)⟩

/-- The switching times differ by the projections, shrunk by one factor. -/
structure LineTimes (p q : SvpwmState K) : Prop where
  ta_sub_tb : q.ta - q.tb = shrink p.ts (largest p) * p.u2
  tb_sub_tc : q.tb - q.tc = shrink p.ts (largest p) * p.u1
  tc_sub_ta : q.tc - q.ta = shrink p.ts (largest p) * p.u3

section Sectors

variable {p q : SvpwmState K}

theorem LineTimes.of_two (hsum : p.u1 + p.u2 + p.u3 = 0) (hab : q.ta - q.tb = shrink p.ts (largest p) * p.u2)
    (hbc : q.tb - q.tc = shrink p.ts (largest p) * p.u1) : LineTimes p q := by
  refine ⟨hab, hbc, ?_⟩
  linear_combination -hab - hbc - shrink p.ts (largest p) * hsum

/-- Two projections of one sign are at most their sum, and the third is the largest. -/
theorem third_largest {x y z : K} (hx : 0 ≤ x) (hy : 0 ≤ y) (h : x + y + z = 0) :
    |x| ≤ x + y ∧ |y| ≤ x + y ∧ |z| ≤ x + y ∧ x + y ≤ |z| := by
  have hz : z = -(x + y) := by linarith
  have hxy : 0 ≤ x + y := add_nonneg hx hy
  rw [hz, abs_neg, abs_of_nonneg hx, abs_of_nonneg hy, abs_of_nonneg hxy]
  exact ⟨by linarith, by linarith, le_refl _, le_refl _⟩

theorem third_largest_neg {x y z : K} (hx : x ≤ 0) (hy : y ≤ 0) (h : x + y + z = 0) :
    |x| ≤ -x + -y ∧ |y| ≤ -x + -y ∧ |z| ≤ -x + -y ∧ -x + -y ≤ |z| := by
  have hneg : -x + -y + -z = 0 := by linarith
  simpa only [abs_neg] using third_largest (neg_nonneg.mpr hx) (neg_nonneg.mpr hy) hneg

theorem lineTimes_sector1 (hsum : p.u1 + p.u2 + p.u3 = 0) (h1 : 0 < p.u1) (h2 : p.u2 ≤ 0) (h3 : p.u3 ≤ 0)
    (hs : p.sector = 1) : LineTimes p (switchSector p) := by
  obtain ⟨hu2, hu3, hu1, hge⟩ := third_largest_neg h2 h3 (by linarith : p.u2 + p.u3 + p.u1 = 0)
  obtain ⟨hfirst, hsecond⟩ := dwell_scaled p (by linarith : 0 < -p.u2 + -p.u3)
  rw [← largest_eq ⟨hu1, hu2, hu3⟩ (.inl hge)] at hfirst hsecond
  apply LineTimes.of_two hsum <;> simp only [switchSector, hs]
  · linear_combination -hfirst
  · linear_combination hfirst + hsecond - shrink p.ts (largest p) * hsum

theorem lineTimes_sector2 (hsum : p.u1 + p.u2 + p.u3 = 0) (h1 : p.u1 ≤ 0) (h2 : 0 < p.u2) (h3 : p.u3 ≤ 0)
    (hs : p.sector = 2) : LineTimes p (switchSector p) := by
  obtain ⟨hu3, hu1, hu2, hge⟩ := third_largest_neg h3 h1 (by linarith : p.u3 + p.u1 + p.u2 = 0)
  obtain ⟨hfirst, hsecond⟩ := dwell_scaled p (by linarith : 0 < -p.u3 + -p.u1)
  rw [← largest_eq ⟨hu1, hu2, hu3⟩ (.inr (.inl hge))] at hfirst hsecond
  apply LineTimes.of_two hsum <;> simp only [switchSector, hs]
  · linear_combination hfirst + hsecond - shrink p.ts (largest p) * hsum
  · linear_combination -hsecond

theorem lineTimes_sector3 (hsum : p.u1 + p.u2 + p.u3 = 0) (h1 : 0 < p.u1) (h2 : 0 < p.u2)
    (hs : p.sector = 3) : LineTimes p (switchSector p) := by
  obtain ⟨hu2, hu1, hu3, hge⟩ := third_largest h2.le h1.le (by linarith : p.u2 + p.u1 + p.u3 = 0)
  obtain ⟨hfirst, hsecond⟩ := dwell_scaled p (add_pos h2 h1)
  rw [← largest_eq ⟨hu1, hu2, hu3⟩ (.inr (.inr hge))] at hfirst hsecond
  apply LineTimes.of_two hsum <;> simp only [switchSector, hs]
  · linear_combination hfirst
  · linear_combination hsecond

theorem lineTimes_sector4 (hsum : p.u1 + p.u2 + p.u3 = 0) (h1 : p.u1 ≤ 0) (h2 : p.u2 ≤ 0) (h3 : 0 < p.u3)
    (hs : p.sector = 4) : LineTimes p (switchSector p) := by
  obtain ⟨hu1, hu2, hu3, hge⟩ := third_largest_neg h1 h2 (by linarith : p.u1 + p.u2 + p.u3 = 0)
  obtain ⟨hfirst, hsecond⟩ := dwell_scaled p (by linarith : 0 < -p.u1 + -p.u2)
  rw [← largest_eq ⟨hu1, hu2, hu3⟩ (.inr (.inr hge))] at hfirst hsecond
  apply LineTimes.of_two hsum <;> simp only [switchSector, hs]
  · linear_combination -hsecond
  · linear_combination -hfirst

theorem lineTimes_sector5 (hsum : p.u1 + p.u2 + p.u3 = 0) (h1 : 0 < p.u1) (h3 : 0 < p.u3)
    (hs : p.sector = 5) : LineTimes p (switchSector p) := by
  obtain ⟨hu1, hu3, hu2, hge⟩ := third_largest h1.le h3.le (by linarith : p.u1 + p.u3 + p.u2 = 0)
  obtain ⟨hfirst, hsecond⟩ := dwell_scaled p (add_pos h1 h3)
  rw [← largest_eq ⟨hu1, hu2, hu3⟩ (.inr (.inl hge))] at hfirst hsecond
  apply LineTimes.of_two hsum <;> simp only [switchSector, hs]
  · linear_combination -hfirst - hsecond - shrink p.ts (largest p) * hsum
  · linear_combination hfirst

theorem lineTimes_sector6 (hsum : p.u1 + p.u2 + p.u3 = 0) (h2 : 0 < p.u2) (h3 : 0 < p.u3)
    (hs : p.sector = 6) : LineTimes p (switchSector p) := by
  obtain ⟨hu3, hu2, hu1, hge⟩ := third_largest h3.le h2.le (by linarith : p.u3 + p.u2 + p.u1 = 0)
  obtain ⟨hfirst, hsecond⟩ := dwell_scaled p (add_pos h3 h2)
  rw [← largest_eq ⟨hu1, hu2, hu3⟩ (.inl hge)] at hfirst hsecond
  apply LineTimes.of_two hsum <;> simp only [switchSector, hs]
  · linear_combination hsecond
  · linear_combination -hfirst - hsecond - shrink p.ts (largest p) * hsum

/-- **The six sectors are one formula.** -/
theorem switchSector_lineTimes (hsum : p.u1 + p.u2 + p.u3 = 0) (hne : ¬(p.u1 = 0 ∧ p.u2 = 0))
    (hsector : p.sector = sectorOf p.u1 p.u2 p.u3) : LineTimes p (switchSector p) := by
  by_cases h1 : p.u1 > 0 <;> by_cases h2 : p.u2 > 0 <;> by_cases h3 : p.u3 > 0 <;>
    simp only [sectorOf, h1, h2, h3, if_true, if_false] at hsector <;> simp only [gt_iff_lt, not_lt] at h1 h2 h3
  · linarith
  · exact lineTimes_sector3 hsum h1 h2 hsector
  · exact lineTimes_sector5 hsum h1 h3 hsector
  · exact lineTimes_sector1 hsum h1 h2 h3 hsector
  · exact lineTimes_sector6 hsum h2 h3 hsector
  · exact lineTimes_sector2 hsum h1 h2 h3 hsector
  · exact lineTimes_sector4 hsum h1 h2 h3 hsector
  · exact absurd ⟨by linarith, by linarith⟩ hne

end Sectors

end Unified

end FocFirmware

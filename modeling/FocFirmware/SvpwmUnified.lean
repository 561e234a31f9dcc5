import FocFirmware.BaseMidrange
import FocFirmware.SvpwmLineVoltage

/-! The six sectors as one zero-sequence injection. Beside the differences of the switching times their
extremes are fixed: the earliest phase is on for the time of one null vector only, the latest for all but
that time, so the two null vectors share what the vector leaves of the period. -/

namespace FocFirmware

open Midrange

section Sectors

variable {K : Type*} [Field K] [LinearOrder K]

/-- What the `switch` leaves alone. -/
theorem switchSector_frame (p : SvpwmState K) :
    (switchSector p).ts = p.ts ∧ (switchSector p).sector = p.sector ∧ (switchSector p).u1 = p.u1 ∧
      (switchSector p).u2 = p.u2 ∧ (switchSector p).u3 = p.u3 := by
  unfold switchSector
  split <;> simp

theorem dwell_t7 (p : SvpwmState K) (first second : K) :
    (dwell p first second).t7 = (p.ts - (dwell p first second).first - (dwell p first second).second) / 2.0 := by
  simp only [dwell]
  split_ifs <;> rfl

/-- The switching times are the two dwell times heaped on the null vector's time, in some order. -/
structure Heaped (q : SvpwmState K) (d : Dwell K) : Prop where
  null_eq : q.t7 = d.t7
  heap : ∀ t ∈ [q.ta, q.tb, q.tc], t ∈ [d.first + d.second + d.t7, d.second + d.t7, d.t7]
  top : d.first + d.second + d.t7 ∈ [q.ta, q.tb, q.tc]
  bottom : d.t7 ∈ [q.ta, q.tb, q.tc]

variable [IsStrictOrderedRing K] {p : SvpwmState K}

/-- What the `switch` does, in whichever sector: two dwell times that are not negative, heaped. -/
theorem switchSector_heaped (hsum : p.u1 + p.u2 + p.u3 = 0) (hne : ¬(p.u1 = 0 ∧ p.u2 = 0))
    (hsector : p.sector = sectorOf p.u1 p.u2 p.u3) :
    (1 ≤ p.sector ∧ p.sector ≤ 6) ∧ ∃ first second, 0 ≤ first ∧ 0 ≤ second ∧ 0 < first + second ∧
      Heaped (switchSector p) (dwell p first second) := by
  by_cases h1 : p.u1 > 0 <;> by_cases h2 : p.u2 > 0 <;> by_cases h3 : p.u3 > 0 <;>
    simp only [sectorOf, h1, h2, h3, if_true, if_false] at hsector <;> simp only [gt_iff_lt, not_lt] at h1 h2 h3
  · linarith
  · refine ⟨by omega, p.u2, p.u1, h2.le, h1.le, add_pos h2 h1, ?_⟩
    constructor <;> simp [switchSector, hsector]
  · refine ⟨by omega, p.u1, p.u3, h1.le, h3.le, add_pos h1 h3, ?_⟩
    constructor <;> simp [switchSector, hsector]
  · refine ⟨by omega, -p.u2, -p.u3, neg_nonneg.mpr h2, neg_nonneg.mpr h3, by linarith, ?_⟩
    constructor <;> simp [switchSector, hsector]
  · refine ⟨by omega, p.u3, p.u2, h3.le, h2.le, add_pos h3 h2, ?_⟩
    constructor <;> simp [switchSector, hsector]
  · refine ⟨by omega, -p.u3, -p.u1, neg_nonneg.mpr h3, neg_nonneg.mpr h1, by linarith, ?_⟩
    constructor <;> simp [switchSector, hsector]
  · refine ⟨by omega, -p.u1, -p.u2, neg_nonneg.mpr h1, neg_nonneg.mpr h2, by linarith, ?_⟩
    constructor <;> simp [switchSector, hsector]
  · exact absurd ⟨by linarith, by linarith⟩ hne

/-- The two dwell times fit into the period, the null vectors share the rest. -/
theorem dwell_fits (hts : 0 < p.ts) {first second : K} (hfirst : 0 ≤ first) (hsecond : 0 ≤ second)
    (hpos : 0 < first + second) :
    let d := dwell p first second
    0 ≤ d.first ∧ 0 ≤ d.second ∧ 0 ≤ d.t7 ∧ d.first + d.second + d.t7 = p.ts - d.t7 := by
  intro d
  obtain ⟨h1, h2⟩ := dwell_scaled p hpos
  have hshrink : 0 ≤ shrink p.ts (first + second) := le_min zero_le_one (div_nonneg hts.le hpos.le)
  have hfit : d.first + d.second ≤ p.ts := by
    rw [h1, h2, ← mul_add]
    calc shrink p.ts (first + second) * (first + second) ≤ p.ts / (first + second) * (first + second) :=
          mul_le_mul_of_nonneg_right (min_le_right _ _) hpos.le
      _ = p.ts := div_mul_cancel₀ _ hpos.ne'
  have ht7 : d.t7 * 2 = p.ts - d.first - d.second := by
    rw [show d.t7 = (p.ts - d.first - d.second) / 2.0 from dwell_t7 p first second]
    norm_num
  refine ⟨?_, ?_, by linarith, by linarith⟩
  · rw [h1]
    exact mul_nonneg hshrink hfirst
  · rw [h2]
    exact mul_nonneg hshrink hsecond

/-- The extremes of the switching times: the null vector's time from either end of the period. -/
structure Centred (ts : K) (q : SvpwmState K) : Prop where
  null_nonneg : 0 ≤ q.t7
  highest : max q.ta (max q.tb q.tc) = ts - q.t7
  lowest : min q.ta (min q.tb q.tc) = q.t7

theorem switchSector_centred (hts : 0 < p.ts) (hsum : p.u1 + p.u2 + p.u3 = 0) (hne : ¬(p.u1 = 0 ∧ p.u2 = 0))
    (hsector : p.sector = sectorOf p.u1 p.u2 p.u3) : Centred p.ts (switchSector p) := by
  obtain ⟨-, first, second, hfirst, hsecond, hpos, hheap⟩ := switchSector_heaped hsum hne hsector
  obtain ⟨h1, h2, h7, htop⟩ := dwell_fits hts hfirst hsecond hpos
  have hle : ∀ t ∈ [(switchSector p).ta, (switchSector p).tb, (switchSector p).tc],
      (dwell p first second).t7 ≤ t ∧
        t ≤ (dwell p first second).first + (dwell p first second).second + (dwell p first second).t7 := by
    intro t ht
    have hmem := hheap.heap t ht
    simp only [List.mem_cons, List.not_mem_nil, or_false] at hmem
    rcases hmem with rfl | rfl | rfl <;> constructor <;> linarith
  obtain ⟨hmax, hmin⟩ := max_min_eq hle hheap.top hheap.bottom
  rw [← hheap.null_eq] at h7 hmin
  refine ⟨h7, ?_, hmin⟩
  rw [hmax, htop, hheap.null_eq]

end Sectors

section Modulator

variable {K : Type*} [Field K] [LinearOrder K] [IsStrictOrderedRing K] {gUdc uAlpha uBeta : K} {p : SvpwmState K}

theorem svpwm_centred (hUdc : 0 < gUdc) (hts : 0 < p.ts) (hne : ¬(uAlpha = 0 ∧ uBeta = 0)) :
    Centred p.ts (svpwm gUdc uAlpha uBeta p) :=
  switchSector_centred (p := projectVector gUdc uAlpha uBeta p) hts (projectVector_sum _ _ _ _) (projectVector_ne_zero hUdc hts hne) rfl

theorem svpwm_sector (hUdc : 0 < gUdc) (hts : 0 < p.ts) (hne : ¬(uAlpha = 0 ∧ uBeta = 0)) :
    1 ≤ (svpwm gUdc uAlpha uBeta p).sector ∧ (svpwm gUdc uAlpha uBeta p).sector ≤ 6 := by
  rw [svpwm, (switchSector_frame _).2.1]
  exact (switchSector_heaped (projectVector_sum _ _ _ _) (projectVector_ne_zero hUdc hts hne) rfl).1

end Modulator

/-- **The unified form.** For every vector but zero the switching times differ by the projections, shrunk
where they exceed the period, and their extremes add up to the period: what the shrunk vector leaves of it
is shared equally by the two null vectors. -/
theorem six_sectors_unified (gUdc uAlpha uBeta : ℝ) (p : SvpwmState ℝ) (hUdc : 0 < gUdc) (hts : 0 < p.ts)
    (hne : ¬(uAlpha = 0 ∧ uBeta = 0)) :
    let q := svpwm gUdc uAlpha uBeta p
    let lam := min 1 (p.ts / max |q.u1| (max |q.u2| |q.u3|))
    (1 ≤ q.sector ∧ q.sector ≤ 6) ∧
      (q.ta - q.tb, q.tb - q.tc, q.tc - q.ta) = (lam * q.u2, lam * q.u1, lam * q.u3) ∧
      max q.ta (max q.tb q.tc) + min q.ta (min q.tb q.tc) = p.ts ∧
      p.ts - max q.ta (max q.tb q.tc) = q.t7 ∧ min q.ta (min q.tb q.tc) = q.t7 := by
  intro q lam
  obtain ⟨-, -, h1, h2, h3⟩ := switchSector_frame (projectVector gUdc uAlpha uBeta p)
  obtain ⟨hab, hbc, hca⟩ := svpwm_lineTimes hUdc hts hne
  have hcentred := svpwm_centred hUdc hts hne
  have hlam : lam = shrink p.ts (largest (projectVector gUdc uAlpha uBeta p)) := by
    rw [shrink, largest, ← h1, ← h2, ← h3]
    rfl
  refine ⟨svpwm_sector hUdc hts hne, ?_, ?_, ?_, hcentred.lowest⟩
  · rw [hlam]
    exact Prod.ext (hab.trans (congrArg _ h2.symm)) (Prod.ext (hbc.trans (congrArg _ h1.symm)) (hca.trans (congrArg _ h3.symm)))
  · rw [hcentred.highest, hcentred.lowest]
    ring
  · rw [hcentred.highest]
    ring

theorem six_sectors_unified_alpha_axis :
    let p : SvpwmState ℝ := ⟨1, 0, 0, 0, 0, 0, 0, 0, 0, 0, 0, 0, 0, 0, 0, 0, 0, 0⟩
    let q := svpwm 24 6 0 p
    let lam := min 1 (p.ts / max |q.u1| (max |q.u2| |q.u3|))
    (1 ≤ q.sector ∧ q.sector ≤ 6) ∧
      (q.ta - q.tb, q.tb - q.tc, q.tc - q.ta) = (lam * q.u2, lam * q.u1, lam * q.u3) ∧
      max q.ta (max q.tb q.tc) + min q.ta (min q.tb q.tc) = p.ts ∧
      p.ts - max q.ta (max q.tb q.tc) = q.t7 ∧ min q.ta (min q.tb q.tc) = q.t7 :=
  six_sectors_unified 24 6 0 _ (by norm_num) (by norm_num) (by norm_num)

end FocFirmware

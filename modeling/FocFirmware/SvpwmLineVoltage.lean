import FocFirmware.SvpwmModulator
import Mathlib.Tactic.Positivity

/-! The line voltages of the modulator against those of the inverse Clarke transform. The projections of
`SVpwm` weigh `U_alpha` with the root of three where half of it belongs, so the two agree only for vectors
that lie almost along the beta axis. -/

namespace FocFirmware

section Linear

variable {K : Type*} [Field K] {gUdc uAlpha uBeta : K} {p : SvpwmState K}

/-- A projection's share of the period, read as a voltage. -/
theorem voltage_of_projection (hUdc : gUdc ≠ 0) {ts : K} (hts : ts ≠ 0) (l w : K) :
    gUdc * (l * (w * (focSqrt3 * ts / gUdc))) / ts = l * (focSqrt3 * w) := by
  field_simp

variable [LinearOrder K] [IsStrictOrderedRing K]

/-- The average line voltages over one period are those of `inv_clarke_transform`, up to the tolerance. -/
def LineVoltagesAgree (gUdc uAlpha uBeta ts : K) (q : SvpwmState K) : Prop :=
  let (ua, ub, uc) := invClarkeTransform gUdc uAlpha uBeta
  let tolerance := 1e-3 * (|uAlpha| + |uBeta|)
  |gUdc * (q.ta - q.tb) / ts - (ua - ub)| ≤ tolerance ∧ |gUdc * (q.tb - q.tc) / ts - (ub - uc)| ≤ tolerance ∧
    |gUdc * (q.tc - q.ta) / ts - (uc - ua)| ≤ tolerance

theorem projectVector_sum (gUdc uAlpha uBeta : K) (p : SvpwmState K) :
    (projectVector gUdc uAlpha uBeta p).u1 + (projectVector gUdc uAlpha uBeta p).u2 +
      (projectVector gUdc uAlpha uBeta p).u3 = 0 := by
  simp only [projectVector, foc1_2]
  ring

theorem projectVector_ne_zero (hUdc : 0 < gUdc) (hts : 0 < p.ts) (hne : ¬(uAlpha = 0 ∧ uBeta = 0)) :
    ¬((projectVector gUdc uAlpha uBeta p).u1 = 0 ∧ (projectVector gUdc uAlpha uBeta p).u2 = 0) := by
  rintro ⟨h1, h2⟩
  have hk : focSqrt3 * p.ts / gUdc ≠ 0 := (div_pos (mul_pos focSqrt3_pos hts) hUdc).ne'
  have hBeta : uBeta = 0 := (mul_eq_zero.mp h1).resolve_right hk
  have hAlpha := (mul_eq_zero.mp h2).resolve_right hk
  rw [hBeta, mul_zero, sub_zero] at hAlpha
  exact hne ⟨(mul_eq_zero.mp hAlpha).resolve_left focSqrt3_pos.ne', hBeta⟩

theorem svpwm_lineTimes (hUdc : 0 < gUdc) (hts : 0 < p.ts) (hne : ¬(uAlpha = 0 ∧ uBeta = 0)) :
    LineTimes (projectVector gUdc uAlpha uBeta p) (svpwm gUdc uAlpha uBeta p) :=
  switchSector_lineTimes (projectVector_sum _ _ _ _) (projectVector_ne_zero hUdc hts hne) rfl

/-- The factor by which the vector is shrunk. -/
def vectorShrink (gUdc uAlpha uBeta : K) (p : SvpwmState K) : K :=
  shrink p.ts (largest (projectVector gUdc uAlpha uBeta p))

/-- What the modulator realises, without the rounding of decimals. -/
theorem lineVoltagesAgree_iff (hUdc : 0 < gUdc) (hts : 0 < p.ts) (hne : ¬(uAlpha = 0 ∧ uBeta = 0)) :
    LineVoltagesAgree gUdc uAlpha uBeta p.ts (svpwm gUdc uAlpha uBeta p) ↔
      let l := vectorShrink gUdc uAlpha uBeta p
      let tolerance := 1e-3 * (|uAlpha| + |uBeta|)
      |l * (2.999824 * uAlpha - 0.866 * uBeta) - (1.5 * uAlpha - 0.866 * uBeta)| ≤ tolerance ∧
        |l * (1.732 * uBeta) - 1.732 * uBeta| ≤ tolerance ∧
        |l * (-2.999824 * uAlpha - 0.866 * uBeta) - (-1.5 * uAlpha - 0.866 * uBeta)| ≤ tolerance := by
  obtain ⟨hab, hbc, hca⟩ := svpwm_lineTimes hUdc hts hne
  have hvoltage := voltage_of_projection hUdc.ne' hts.ne' (vectorShrink gUdc uAlpha uBeta p)
  have h1 : gUdc * ((svpwm gUdc uAlpha uBeta p).ta - (svpwm gUdc uAlpha uBeta p).tb) / p.ts =
      vectorShrink gUdc uAlpha uBeta p * (2.999824 * uAlpha - 0.866 * uBeta) := by
    rw [hab]
    apply (hvoltage _).trans
    rw [focSqrt3, foc1_2]
    ring
  have h2 : gUdc * ((svpwm gUdc uAlpha uBeta p).tb - (svpwm gUdc uAlpha uBeta p).tc) / p.ts =
      vectorShrink gUdc uAlpha uBeta p * (1.732 * uBeta) := by
    rw [hbc]
    exact hvoltage _
  have h3 : gUdc * ((svpwm gUdc uAlpha uBeta p).tc - (svpwm gUdc uAlpha uBeta p).ta) / p.ts =
      vectorShrink gUdc uAlpha uBeta p * (-2.999824 * uAlpha - 0.866 * uBeta) := by
    rw [hca]
    apply (hvoltage _).trans
    rw [focSqrt3, foc1_2]
    ring
  have hphase1 : uAlpha + gUdc / 2 - ((focSqrt3 * uBeta - uAlpha) / 2 + gUdc / 2) = 1.5 * uAlpha - 0.866 * uBeta := by
    rw [focSqrt3]
    ring
  have hphase2 : (focSqrt3 * uBeta - uAlpha) / 2 + gUdc / 2 - ((-focSqrt3 * uBeta - uAlpha) / 2 + gUdc / 2) =
      1.732 * uBeta := by
    rw [focSqrt3]
    ring
  have hphase3 : (-focSqrt3 * uBeta - uAlpha) / 2 + gUdc / 2 - (uAlpha + gUdc / 2) =
      -1.5 * uAlpha - 0.866 * uBeta := by
    rw [focSqrt3]
    ring
  simp only [LineVoltagesAgree, invClarkeTransform, h1, h2, h3, hphase1, hphase2, hphase3]

/-- A supply, and the lengths of the two parts of a vector in its linear range. -/
structure LinearRange (gUdc a b : K) : Prop where
  udc_pos : 0 < gUdc
  alpha_nonneg : 0 ≤ a
  beta_nonneg : 0 ≤ b
  in_disc : a ^ 2 + b ^ 2 ≤ gUdc ^ 2 / 3

namespace LinearRange

variable {a b : K}

theorem beta_fits (h : LinearRange gUdc a b) : 1.732 * b ≤ gUdc := by
  have hdisc := h.in_disc
  refine abs_le_of_sq_le_sq' ?_ h.udc_pos.le |>.2
  nlinarith [sq_nonneg a, sq_nonneg b]

/-- The longest projection is at most `gUdc / 0.55`. -/
theorem projection_le (h : LinearRange gUdc a b) : 0.55 * (2.999824 * a + 0.866 * b) ≤ gUdc := by
  have hdisc := h.in_disc
  refine abs_le_of_sq_le_sq' ?_ h.udc_pos.le |>.2
  have hcauchy : (2.999824 * a + 0.866 * b) ^ 2 ≤ 9.75 * (a ^ 2 + b ^ 2) := by
    nlinarith [sq_nonneg (0.866 * a - 2.999824 * b), sq_nonneg a, sq_nonneg b]
  nlinarith

/-- A vector whose projection does not fit has a large alpha part. -/
theorem beta_lt_of_over (h : LinearRange gUdc a b) (hover : gUdc < 2.999824 * a + 0.866 * b) : b < 3.5 * a := by
  have hfits := h.beta_fits
  have hbeta := h.beta_nonneg
  linarith

end LinearRange

theorem abs_sub_le_weighted (uAlpha uBeta : K) {c d : K} (hc : 0 ≤ c) (hd : 0 ≤ d) :
    |c * uAlpha - d * uBeta| ≤ c * |uAlpha| + d * |uBeta| := by
  calc |c * uAlpha - d * uBeta| ≤ |c * uAlpha| + |d * uBeta| := abs_sub _ _
    _ = c * |uAlpha| + d * |uBeta| := by rw [abs_mul, abs_mul, abs_of_nonneg hc, abs_of_nonneg hd]

/-- The projections as lengths: one is the beta part, the other two are at most the combined part. -/
theorem projection_bounds (uAlpha uBeta : K) (hUdc : 0 < gUdc) (hts : 0 < p.ts) :
    |(projectVector gUdc uAlpha uBeta p).u1| = p.ts / gUdc * (1.732 * |uBeta|) ∧
      |(projectVector gUdc uAlpha uBeta p).u2| ≤ p.ts / gUdc * (2.999824 * |uAlpha| + 0.866 * |uBeta|) ∧
      |(projectVector gUdc uAlpha uBeta p).u3| ≤ p.ts / gUdc * (2.999824 * |uAlpha| + 0.866 * |uBeta|) := by
  have hk : 0 < p.ts / gUdc := div_pos hts hUdc
  have hscale : ∀ w : K, w * (focSqrt3 * p.ts / gUdc) = p.ts / gUdc * (1.732 * w) := by
    intro w
    rw [focSqrt3]
    ring
  have habs : ∀ w : K, |w * (focSqrt3 * p.ts / gUdc)| = p.ts / gUdc * |1.732 * w| := by
    intro w
    rw [hscale, abs_mul, abs_of_pos hk]
  refine ⟨?_, ?_, ?_⟩
  · rw [projectVector, habs, abs_mul, abs_of_pos (by norm_num : (0 : K) < 1.732)]
  · rw [projectVector, habs]
    refine mul_le_mul_of_nonneg_left ?_ hk.le
    have hsplit : (1.732 : K) * (focSqrt3 * uAlpha - foc1_2 * uBeta) = 2.999824 * uAlpha - 0.866 * uBeta := by
      rw [focSqrt3, foc1_2]
      ring
    rw [hsplit]
    exact abs_sub_le_weighted _ _ (by norm_num) (by norm_num)
  · rw [projectVector, habs]
    refine mul_le_mul_of_nonneg_left ?_ hk.le
    have hsplit : (1.732 : K) * (-focSqrt3 * uAlpha - foc1_2 * uBeta) = 2.999824 * -uAlpha - 0.866 * uBeta := by
      rw [focSqrt3, foc1_2]
      ring
    rw [hsplit, ← abs_neg uAlpha]
    exact abs_sub_le_weighted _ _ (by norm_num) (by norm_num)

/-- A vector in the linear range is left alone, or it is shrunk by a factor over 0.55 and its alpha part
is large. -/
theorem vectorShrink_cases (hts : 0 < p.ts) (hne : ¬(uAlpha = 0 ∧ uBeta = 0))
    (hrange : LinearRange gUdc |uAlpha| |uBeta|) :
    vectorShrink gUdc uAlpha uBeta p = 1 ∨
      0.55 ≤ vectorShrink gUdc uAlpha uBeta p ∧ |uBeta| < 3.5 * |uAlpha| := by
  have hUdc := hrange.udc_pos
  have hk : 0 < p.ts / gUdc := div_pos hts hUdc
  have hfit : ∀ w, w ≤ gUdc → p.ts / gUdc * w ≤ p.ts := fun w hw =>
    (mul_le_mul_of_nonneg_left hw hk.le).trans_eq (div_mul_cancel₀ _ hUdc.ne')
  obtain ⟨h1, h2, h3⟩ := projection_bounds uAlpha uBeta hUdc hts
  have hu1 := h1.le.trans (hfit _ hrange.beta_fits)
  have hpos := largest_pos (projectVector_ne_zero hUdc hts hne)
  unfold vectorShrink shrink
  by_cases hsmall : largest (projectVector gUdc uAlpha uBeta p) ≤ p.ts
  · left
    exact min_eq_left ((one_le_div hpos).mpr hsmall)
  right
  have hover : gUdc < 2.999824 * |uAlpha| + 0.866 * |uBeta| := by
    by_contra hle
    have hw := hfit _ (not_lt.mp hle)
    exact hsmall (max_le hu1 (max_le (h2.trans hw) (h3.trans hw)))
  refine ⟨le_min (by norm_num) ?_, hrange.beta_lt_of_over hover⟩
  rw [le_div_iff₀ hpos]
  have hw : p.ts / gUdc * (2.999824 * |uAlpha| + 0.866 * |uBeta|) ≤ p.ts / 0.55 := by
    rw [le_div_iff₀ (by norm_num), mul_assoc, mul_comm _ (0.55 : K)]
    exact hfit _ hrange.projection_le
  have hts' : p.ts ≤ p.ts / 0.55 := by
    rw [le_div_iff₀ (by norm_num)]
    linarith
  have hlargest : largest (projectVector gUdc uAlpha uBeta p) ≤ p.ts / 0.55 :=
    max_le (hu1.trans hts') (max_le (h2.trans hw) (h3.trans hw))
  rwa [le_div_iff₀ (by norm_num), mul_comm] at hlargest

/-- Shrinking does not make up for the weight of the alpha part. -/
theorem disagree_of_large {l : K} (hlow : 0.55 ≤ l) (hlarge : |uBeta| < 3.5 * |uAlpha|) :
    ¬(|l * (2.999824 * uAlpha - 0.866 * uBeta) - (1.5 * uAlpha - 0.866 * uBeta)| ≤ 1e-3 * (|uAlpha| + |uBeta|) ∧
      |l * (-2.999824 * uAlpha - 0.866 * uBeta) - (-1.5 * uAlpha - 0.866 * uBeta)| ≤
        1e-3 * (|uAlpha| + |uBeta|)) := by
  rintro ⟨h1, h3⟩
  have hweight : 0.29 ≤ 5.999648 * l - 3 := by linarith
  have hdiff : |(5.999648 * l - 3) * uAlpha| ≤ 2e-3 * (|uAlpha| + |uBeta|) := by
    calc |(5.999648 * l - 3) * uAlpha|
        = |l * (2.999824 * uAlpha - 0.866 * uBeta) - (1.5 * uAlpha - 0.866 * uBeta) -
            (l * (-2.999824 * uAlpha - 0.866 * uBeta) - (-1.5 * uAlpha - 0.866 * uBeta))| := by ring_nf
      _ ≤ 1e-3 * (|uAlpha| + |uBeta|) + 1e-3 * (|uAlpha| + |uBeta|) := (abs_sub _ _).trans (add_le_add h1 h3)
      _ = 2e-3 * (|uAlpha| + |uBeta|) := by ring
  rw [abs_mul, abs_of_pos (by linarith)] at hdiff
  have hscaled := mul_le_mul_of_nonneg_right hweight (abs_nonneg uAlpha)
  linarith [abs_nonneg uBeta]

end Linear

/-- **The two modulators.** In the linear range they realise the same line voltages exactly for vectors
that lie almost along the beta axis. -/
theorem line_voltages_agree_iff (gUdc uAlpha uBeta : ℝ) (p : SvpwmState ℝ) (hUdc : 0 < gUdc) (hts : 0 < p.ts)
    (hne : ¬(uAlpha = 0 ∧ uBeta = 0)) (hlinear : uAlpha ^ 2 + uBeta ^ 2 ≤ gUdc ^ 2 / 3) :
    LineVoltagesAgree gUdc uAlpha uBeta p.ts (svpwm gUdc uAlpha uBeta p) ↔
      1.498824 * |uAlpha| ≤ 1e-3 * |uBeta| := by
  have hrange : LinearRange gUdc |uAlpha| |uBeta| :=
    ⟨hUdc, abs_nonneg _, abs_nonneg _, by rwa [sq_abs, sq_abs]⟩
  have hAlpha := abs_nonneg uAlpha
  rw [lineVoltagesAgree_iff hUdc hts hne]
  rcases vectorShrink_cases hts hne hrange with hone | ⟨hlow, hlarge⟩
  · have h1 : 1 * (2.999824 * uAlpha - 0.866 * uBeta) - (1.5 * uAlpha - 0.866 * uBeta) = 1.499824 * uAlpha := by ring
    have h2 : 1 * (1.732 * uBeta) - 1.732 * uBeta = 0 := by ring
    have h3 : 1 * (-2.999824 * uAlpha - 0.866 * uBeta) - (-1.5 * uAlpha - 0.866 * uBeta) = -(1.499824 * uAlpha) := by
      ring
    simp only [hone, h1, h2, h3, abs_neg, abs_mul, abs_zero, abs_of_pos (by norm_num : (0 : ℝ) < 1.499824)]
    constructor
    · rintro ⟨hle, -, -⟩
      linarith
    · intro hle
      exact ⟨by linarith, by positivity, by linarith⟩
  · refine iff_of_false (fun hagree => disagree_of_large hlow hlarge ⟨hagree.1, hagree.2.2⟩) ?_
    have hBeta := abs_nonneg uBeta
    linarith

theorem line_voltages_agree_iff_beta_axis :
    let p : SvpwmState ℝ := ⟨1, 0, 0, 0, 0, 0, 0, 0, 0, 0, 0, 0, 0, 0, 0, 0, 0, 0⟩
    LineVoltagesAgree 24 0 6 p.ts (svpwm 24 0 6 p) ↔ 1.498824 * |(0 : ℝ)| ≤ 1e-3 * |(6 : ℝ)| :=
  line_voltages_agree_iff 24 0 6 _ (by norm_num) (by norm_num) (by norm_num) (by norm_num)

/-- With 6 V along the alpha axis of a 24 V supply the line voltage between the first two phases is 18 V
instead of 9 V. -/
theorem line_voltages_differ_on_alpha_axis :
    let p : SvpwmState ℝ := ⟨1, 0, 0, 0, 0, 0, 0, 0, 0, 0, 0, 0, 0, 0, 0, 0, 0, 0⟩
    (6 : ℝ) ^ 2 + 0 ^ 2 ≤ 24 ^ 2 / 3 ∧ ¬LineVoltagesAgree 24 6 0 p.ts (svpwm 24 6 0 p) := by
  intro p
  have hts : 0 < p.ts := by norm_num [p]
  have hne : ¬((6 : ℝ) = 0 ∧ (0 : ℝ) = 0) := by norm_num
  have hrange : LinearRange 24 |(6 : ℝ)| |(0 : ℝ)| := by constructor <;> norm_num
  have hlarge : |(0 : ℝ)| < 3.5 * |(6 : ℝ)| := by norm_num
  refine ⟨by norm_num, fun hagree => ?_⟩
  rw [lineVoltagesAgree_iff (by norm_num) hts hne] at hagree
  rcases vectorShrink_cases hts hne hrange with hone | ⟨hlow, -⟩
  · exact disagree_of_large (by rw [hone]; norm_num) hlarge ⟨hagree.1, hagree.2.2⟩
  · exact disagree_of_large hlow hlarge ⟨hagree.1, hagree.2.2⟩

end FocFirmware

import FocFirmware.BaseRadial
import FocFirmware.SvpwmUnified
import Mathlib.Analysis.InnerProductSpace.Basic

/-! The switching times as a continuous function of the projections. Shrinking is the radial retraction in
the norm of the largest projection, and each time is half the period less half the pull of the other two
phases, so the sectors and the overmodulation leave no jump. -/

namespace FocFirmware

open Midrange Radial

/-- The three projections that `SVpwm` computes, in the norm of the largest. -/
def projections {K : Type*} [Field K] [LinearOrder K] (gUdc uAlpha uBeta : K) (p : SvpwmState K) : K × K × K :=
  let q := projectVector gUdc uAlpha uBeta p
  (q.u1, q.u2, q.u3)

section Times

variable {gUdc uAlpha uBeta : ℝ} {p : SvpwmState ℝ}

/-- The projections depend on the state only through the period. -/
theorem projections_congr {q : SvpwmState ℝ} (h : p.ts = q.ts) :
    projections gUdc uAlpha uBeta p = projections gUdc uAlpha uBeta q := by
  simp only [projections, projectVector, h]

/-- The differences of the switching times are the retracted projections. -/
theorem lineTimes_retract (h : LineTimes (projectVector gUdc uAlpha uBeta p) (svpwm gUdc uAlpha uBeta p)) :
    let q := svpwm gUdc uAlpha uBeta p
    retract p.ts (projections gUdc uAlpha uBeta p) = (q.tb - q.tc, q.ta - q.tb, q.tc - q.ta) := by
  obtain ⟨hab, hbc, hca⟩ := h
  ext
  · exact hbc.symm
  · exact hab.symm
  · exact hca.symm

/-- Each of three times is half the period less half the pull of the other two phases. -/
structure TimesFrom (ts : ℝ) (w t : ℝ × ℝ × ℝ) : Prop where
  ta_eq : 2 * t.1 = ts - pull (-w.2.1) w.2.2
  tb_eq : 2 * t.2.1 = ts - pull (-w.1) w.2.1
  tc_eq : 2 * t.2.2 = ts - pull (-w.2.2) w.1

/-- **Each switching time from the retracted projections.** -/
theorem svpwm_timesFrom (hUdc : 0 < gUdc) (hts : 0 < p.ts) (hne : ¬(uAlpha = 0 ∧ uBeta = 0)) :
    let q := svpwm gUdc uAlpha uBeta p
    TimesFrom p.ts (retract p.ts (projections gUdc uAlpha uBeta p)) (q.ta, q.tb, q.tc) := by
  intro q
  have hw : retract p.ts (projections gUdc uAlpha uBeta p) = (q.tb - q.tc, q.ta - q.tb, q.tc - q.ta) :=
    lineTimes_retract (svpwm_lineTimes hUdc hts hne)
  have hcentred := svpwm_centred hUdc hts hne
  have hextremes : max q.ta (max q.tb q.tc) + min q.ta (min q.tb q.tc) = p.ts := by
    rw [hcentred.highest, hcentred.lowest]
    ring
  obtain ⟨hmaxb, hminb⟩ := max_min_rotate q.ta q.tb q.tc
  obtain ⟨hmaxc, hminc⟩ := max_min_rotate q.tb q.tc q.ta
  rw [hw]
  constructor
  · rw [neg_sub]
    exact two_mul_eq hextremes
  · rw [neg_sub]
    apply two_mul_eq
    rw [hmaxb, hminb, hextremes]
  · rw [neg_sub]
    apply two_mul_eq
    rw [hmaxc, hminc, hmaxb, hminb, hextremes]

/-- Times are as near to each other as the retracted projections they come from. -/
theorem norm_times_sub_le {ts : ℝ} {w w' t t' : ℝ × ℝ × ℝ} (h : TimesFrom ts w t) (h' : TimesFrom ts w' t') :
    ‖t - t'‖ ≤ ‖w - w'‖ := by
  have hw1 : |w.1 - w'.1| ≤ ‖w - w'‖ := norm_fst_le (w - w')
  have hw2 : |w.2.1 - w'.2.1| ≤ ‖w - w'‖ := (norm_fst_le (w - w').2).trans (norm_snd_le (w - w'))
  have hw3 : |w.2.2 - w'.2.2| ≤ ‖w - w'‖ := (norm_snd_le (w - w').2).trans (norm_snd_le (w - w'))
  have hneg : ∀ {x x' : ℝ}, |x - x'| ≤ ‖w - w'‖ → |-x - -x'| ≤ ‖w - w'‖ := by
    intro x x' hx
    rwa [neg_sub_neg, abs_sub_comm]
  have htime : ∀ {s s' x y x' y' : ℝ}, 2 * s = ts - pull x y → 2 * s' = ts - pull x' y' →
      |x - x'| ≤ ‖w - w'‖ → |y - y'| ≤ ‖w - w'‖ → |s - s'| ≤ ‖w - w'‖ := by
    intro s s' x y x' y' hs hs' hx hy
    have hpull := (abs_pull_sub_le x y x' y').trans (mul_le_mul_of_nonneg_left (max_le hx hy) zero_le_two)
    have hdiff : 2 * (s - s') = -(pull x y - pull x' y') := by linarith
    rw [← abs_neg, ← hdiff, abs_mul, abs_two] at hpull
    linarith
  obtain ⟨ha, hb, hc⟩ := h
  obtain ⟨ha', hb', hc'⟩ := h'
  exact max_le (htime ha ha' (hneg hw2) hw3) (max_le (htime hb hb' (hneg hw1) hw2) (htime hc hc' (hneg hw3) hw1))

end Times

/-- **No jump.** Two vectors other than zero, in whatever sectors and overmodulated or not, have switching
times no further apart than twice the largest difference of their projections. -/
theorem switching_times_lipschitz (gUdc uAlpha uBeta uAlpha' uBeta' : ℝ) (p p' : SvpwmState ℝ) (hUdc : 0 < gUdc)
    (hts : 0 < p.ts) (hsame : p'.ts = p.ts) (hne : ¬(uAlpha = 0 ∧ uBeta = 0)) (hne' : ¬(uAlpha' = 0 ∧ uBeta' = 0)) :
    let q := svpwm gUdc uAlpha uBeta p
    let q' := svpwm gUdc uAlpha' uBeta' p'
    let gap := max |q.u1 - q'.u1| (max |q.u2 - q'.u2| |q.u3 - q'.u3|)
    |q.ta - q'.ta| ≤ 2 * gap ∧ |q.tb - q'.tb| ≤ 2 * gap ∧ |q.tc - q'.tc| ≤ 2 * gap := by
  intro q q' gap
  obtain ⟨-, -, h1, h2, h3⟩ := switchSector_frame (projectVector gUdc uAlpha uBeta p)
  obtain ⟨-, -, h1', h2', h3'⟩ := switchSector_frame (projectVector gUdc uAlpha' uBeta' p')
  have hgap : ‖projections gUdc uAlpha uBeta p - projections gUdc uAlpha' uBeta' p'‖ = gap := by
    simp only [gap, q, q', svpwm, h1, h2, h3, h1', h2', h3']
    rfl
  have htimes : TimesFrom p.ts (retract p.ts (projections gUdc uAlpha uBeta p)) (q.ta, q.tb, q.tc) :=
    svpwm_timesFrom hUdc hts hne
  have htimes' : TimesFrom p'.ts (retract p'.ts (projections gUdc uAlpha' uBeta' p')) (q'.ta, q'.tb, q'.tc) :=
    svpwm_timesFrom hUdc (hsame ▸ hts : 0 < p'.ts) hne'
  rw [hsame] at htimes'
  have hall : ‖(q.ta, q.tb, q.tc) - (q'.ta, q'.tb, q'.tc)‖ ≤ 2 * gap := by
    calc ‖(q.ta, q.tb, q.tc) - (q'.ta, q'.tb, q'.tc)‖
        ≤ ‖retract p.ts (projections gUdc uAlpha uBeta p) - retract p.ts (projections gUdc uAlpha' uBeta' p')‖ :=
          norm_times_sub_le htimes htimes'
      _ ≤ 2 * gap := hgap ▸ norm_retract_sub_le hts.le _ _
  obtain ⟨ha, hbc⟩ := max_le_iff.mp hall
  obtain ⟨hb, hc⟩ := max_le_iff.mp hbc
  exact ⟨ha, hb, hc⟩

theorem switching_times_lipschitz_across_sectors :
    let p : SvpwmState ℝ := ⟨1, 0, 0, 0, 0, 0, 0, 0, 0, 0, 0, 0, 0, 0, 0, 0, 0, 0⟩
    let q := svpwm 24 6 0 p
    let q' := svpwm 24 (-3) 5 p
    let gap := max |q.u1 - q'.u1| (max |q.u2 - q'.u2| |q.u3 - q'.u3|)
    |q.ta - q'.ta| ≤ 2 * gap ∧ |q.tb - q'.tb| ≤ 2 * gap ∧ |q.tc - q'.tc| ≤ 2 * gap :=
  switching_times_lipschitz 24 6 0 (-3) 5 _ _ (by norm_num) (by norm_num) rfl (by norm_num) (by norm_num)

end FocFirmware

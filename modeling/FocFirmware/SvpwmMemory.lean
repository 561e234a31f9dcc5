import FocFirmware.SvpwmContinuity

/-! What `SVpwm` remembers. Every vector but zero sets all three switching times afresh. The zero vector
falls through the `switch` and leaves the old times, though the times of all others tend to half the
period around it. -/

namespace FocFirmware

open Filter Topology Midrange Radial

/-- The three times the modulator hands on. -/
def SvpwmState.switchTimes {K : Type*} (q : SvpwmState K) : K × K × K := (q.ta, q.tb, q.tc)

/-- The times depend on the vector and the period only, and the zero vector has all of them half a period. -/
structure Memoryless (gUdc uAlpha uBeta ts : ℝ) : Prop where
  same : ∀ p q : SvpwmState ℝ, p.ts = ts → q.ts = ts →
    (svpwm gUdc uAlpha uBeta p).switchTimes = (svpwm gUdc uAlpha uBeta q).switchTimes
  at_zero : uAlpha = 0 ∧ uBeta = 0 → ∀ p : SvpwmState ℝ, p.ts = ts →
    (svpwm gUdc uAlpha uBeta p).switchTimes = (ts / 2, ts / 2, ts / 2)

section Vectors

variable {gUdc uAlpha uBeta : ℝ} {p q : SvpwmState ℝ}

/-- The zero vector changes the projections and the sector only. -/
theorem svpwm_zero (gUdc : ℝ) (p : SvpwmState ℝ) : (svpwm gUdc 0 0 p).switchTimes = p.switchTimes := by
  simp [svpwm, projectVector, sectorOf, switchSector, SvpwmState.switchTimes]

theorem switchTimes_congr (hUdc : 0 < gUdc) (hts : 0 < p.ts) (hsame : q.ts = p.ts)
    (hne : ¬(uAlpha = 0 ∧ uBeta = 0)) :
    (svpwm gUdc uAlpha uBeta p).switchTimes = (svpwm gUdc uAlpha uBeta q).switchTimes := by
  obtain ⟨ha, hb, hc⟩ := svpwm_timesFrom hUdc hts hne
  obtain ⟨ha', hb', hc'⟩ := svpwm_timesFrom hUdc (hsame ▸ hts : 0 < q.ts) hne
  rw [hsame, projections_congr hsame] at ha' hb' hc'
  ext
  · exact mul_left_cancel₀ two_ne_zero (ha.trans ha'.symm)
  · exact mul_left_cancel₀ two_ne_zero (hb.trans hb'.symm)
  · exact mul_left_cancel₀ two_ne_zero (hc.trans hc'.symm)

/-- The times are as near to half the period as the projections are to zero. -/
theorem norm_switchTimes_sub_le (hUdc : 0 < gUdc) (hts : 0 < p.ts) (hne : ¬(uAlpha = 0 ∧ uBeta = 0)) :
    ‖(svpwm gUdc uAlpha uBeta p).switchTimes - (p.ts / 2, p.ts / 2, p.ts / 2)‖ ≤ ‖projections gUdc uAlpha uBeta p‖ := by
  have hhalf : TimesFrom p.ts 0 (p.ts / 2, p.ts / 2, p.ts / 2) := by
    constructor <;> simp only [pull, Prod.fst_zero, Prod.snd_zero, neg_zero, max_self, min_self] <;> ring
  calc ‖(svpwm gUdc uAlpha uBeta p).switchTimes - (p.ts / 2, p.ts / 2, p.ts / 2)‖
      ≤ ‖retract p.ts (projections gUdc uAlpha uBeta p) - 0‖ :=
        norm_times_sub_le (svpwm_timesFrom hUdc hts hne) hhalf
    _ ≤ ‖projections gUdc uAlpha uBeta p‖ := by
        rw [sub_zero]
        exact (norm_retract_le hts.le _).trans (min_le_left _ _)

/-- Around the zero vector the times tend to half the period. -/
theorem tendsto_switchTimes (hUdc : 0 < gUdc) (hts : 0 < p.ts) :
    Tendsto (fun v : ℝ × ℝ => (svpwm gUdc v.1 v.2 p).switchTimes) (𝓝[≠] 0) (𝓝 (p.ts / 2, p.ts / 2, p.ts / 2)) := by
  have hcont : Continuous fun v : ℝ × ℝ => ‖projections gUdc v.1 v.2 p‖ := by
    simp only [projections, projectVector]
    fun_prop
  have hzero : ‖projections gUdc 0 0 p‖ = 0 := by
    simp [projections, projectVector]
  have hsmall : Tendsto (fun v : ℝ × ℝ => ‖projections gUdc v.1 v.2 p‖) (𝓝[≠] 0) (𝓝 0) := by
    have h := hcont.tendsto (0 : ℝ × ℝ)
    rw [show ‖projections gUdc (0 : ℝ × ℝ).1 (0 : ℝ × ℝ).2 p‖ = 0 from hzero] at h
    exact h.mono_left nhdsWithin_le_nhds
  rw [tendsto_iff_norm_sub_tendsto_zero]
  apply squeeze_zero' (Eventually.of_forall fun v => norm_nonneg _) _ hsmall
  filter_upwards [self_mem_nhdsWithin] with v hv
  exact norm_switchTimes_sub_le hUdc hts fun hne => hv (Prod.ext hne.1 hne.2)

end Vectors

/-- **The memory of the modulator.** It has none exactly when the vector is not zero, and around zero the
times tend to half the period whatever the state before. -/
theorem no_memory_iff (gUdc uAlpha uBeta ts : ℝ) (hUdc : 0 < gUdc) (hts : 0 < ts) :
    (Memoryless gUdc uAlpha uBeta ts ↔ ¬(uAlpha = 0 ∧ uBeta = 0)) ∧
      ∀ p : SvpwmState ℝ, p.ts = ts →
        Tendsto (fun v : ℝ × ℝ => (svpwm gUdc v.1 v.2 p).switchTimes) (𝓝[≠] 0) (𝓝 (ts / 2, ts / 2, ts / 2)) := by
  refine ⟨⟨?_, ?_⟩, ?_⟩
  · rintro hmemoryless ⟨rfl, rfl⟩
    have htimes := hmemoryless.at_zero ⟨rfl, rfl⟩ ⟨ts, 0, 0, 0, 0, 0, 0, 0, 0, 0, 0, 0, 0, 0, 0, 0, 0, 0⟩ rfl
    rw [svpwm_zero] at htimes
    have hhalf : 0 = ts / 2 := congrArg Prod.fst htimes
    linarith
  · intro hne
    refine ⟨fun p q hp hq => ?_, fun hzero => absurd hzero hne⟩
    exact switchTimes_congr hUdc (hp ▸ hts : 0 < p.ts) (hq.trans hp.symm) hne
  · rintro p rfl
    exact tendsto_switchTimes hUdc hts

theorem no_memory_iff_beta_axis :
    (Memoryless 24 0 6 1 ↔ ¬((0 : ℝ) = 0 ∧ (6 : ℝ) = 0)) ∧
      ∀ p : SvpwmState ℝ, p.ts = 1 →
        Tendsto (fun v : ℝ × ℝ => (svpwm 24 v.1 v.2 p).switchTimes) (𝓝[≠] 0) (𝓝 (1 / 2, 1 / 2, 1 / 2)) :=
  no_memory_iff 24 0 6 1 (by norm_num) (by norm_num)

/-- After a vector along the alpha axis the zero vector keeps the duties of that vector; from power-up it
keeps zeros. -/
theorem stale_times_at_zero_vector :
    let p : SvpwmState ℝ := ⟨1, 0, 0, 0, 0, 0, 0, 0, 0, 0, 0, 0, 0, 0, 0, 0, 0, 0⟩
    let q := svpwm 24 6 0 p
    (svpwm 24 0 0 p).switchTimes = (0, 0, 0) ∧ (svpwm 24 0 0 q).switchTimes = q.switchTimes ∧
      q.switchTimes ≠ (0, 0, 0) ∧ ¬Memoryless 24 0 0 1 := by
  intro p q
  refine ⟨svpwm_zero _ _, svpwm_zero _ _, fun htimes => ?_, fun hmemoryless => ?_⟩
  · have hcentred : Centred p.ts q := svpwm_centred (by norm_num) (by norm_num) (by norm_num)
    obtain ⟨hta, htb, htc⟩ : q.ta = 0 ∧ q.tb = 0 ∧ q.tc = 0 := by simpa [SvpwmState.switchTimes] using htimes
    have hhigh := hcentred.highest
    have hlow := hcentred.lowest
    rw [hta, htb, htc] at hhigh hlow
    norm_num [p] at hhigh hlow
    linarith
  · have hhalf : (0 : ℝ) = 1 / 2 := congrArg Prod.fst ((svpwm_zero 24 p).symm.trans (hmemoryless.at_zero ⟨rfl, rfl⟩ p rfl))
    norm_num at hhalf

end FocFirmware

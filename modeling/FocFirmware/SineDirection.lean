import FocFirmware.BaseDirection
import FocFirmware.SineAccuracy

/-! The direction of the vector of `fast_cos` and `fast_sin`. Around the first axis the quotient of the two
polynomials is increasing, so there every direction belongs to one angle of a turn only. -/

namespace FocFirmware

open Direction Remainder

/-- The direction of `(fast_cos, fast_sin)` at `a`. -/
noncomputable def fastDirection (a : ℝ) : ℝ := Complex.arg ⟨fastCos a, fastSin a⟩

section Quotient

/-- Powers of numbers below one half move less than the numbers. -/
theorem pow_gap {x x' : ℝ} (hlow : 0 ≤ x) (hle : x ≤ x') (hhigh : x' ≤ 1 / 2) (n : ℕ) (hn : 1 ≤ n) :
    0 ≤ x' ^ n - x ^ n ∧ x' ^ n - x ^ n ≤ x' - x := by
  refine ⟨sub_nonneg.mpr (pow_le_pow_left₀ hlow hle n), ?_⟩
  induction n, hn using Nat.le_induction with
  | base => simp
  | succ n hn ih =>
      have hpow : x ^ n ≤ 1 / 2 := (pow_le_of_le_one hlow (by linarith) (by omega)).trans (hle.trans hhigh)
      calc x' ^ (n + 1) - x ^ (n + 1) = x' * (x' ^ n - x ^ n) + x ^ n * (x' - x) := by ring
        _ ≤ 1 / 2 * (x' - x) + 1 / 2 * (x' - x) := by
            apply add_le_add
            · exact mul_le_mul hhigh ih (sub_nonneg.mpr (pow_le_pow_left₀ hlow hle n)) (by norm_num)
            · exact mul_le_mul_of_nonneg_right hpow (sub_nonneg.mpr hle)
        _ = x' - x := by ring

variable {x x' : ℝ} (hlow : 0 ≤ x) (hle : x ≤ x') (hhigh : x' ≤ 1 / 2)

include hlow hle hhigh

/-- A polynomial with alternating signs moves between its negative and its positive coefficients. -/
theorem alternating_gap {p : ℝ → ℝ} {c1 c2 c3 c4 c5 c6 : ℝ}
    (hp : ∀ z, p z = c6 * z ^ 6 - c5 * z ^ 5 + c4 * z ^ 4 - c3 * z ^ 3 + c2 * z ^ 2 - c1 * z)
    (h2 : 0 ≤ c2) (h3 : 0 ≤ c3) (h4 : 0 ≤ c4) (h5 : 0 ≤ c5) (h6 : 0 ≤ c6) :
    p x - (c1 + c3 + c5) * (x' - x) ≤ p x' ∧ p x' + (c1 - c2 - c4 - c6) * (x' - x) ≤ p x := by
  have hterm : ∀ {c : ℝ}, 0 ≤ c → ∀ n : ℕ, 1 ≤ n →
      0 ≤ c * (x' ^ n - x ^ n) ∧ c * (x' ^ n - x ^ n) ≤ c * (x' - x) := by
    intro c hc n hn
    obtain ⟨hnonneg, hgap⟩ := pow_gap hlow hle hhigh n hn
    exact ⟨mul_nonneg hc hnonneg, mul_le_mul_of_nonneg_left hgap hc⟩
  obtain ⟨low2, high2⟩ := hterm h2 2 (by norm_num)
  obtain ⟨low3, high3⟩ := hterm h3 3 (by norm_num)
  obtain ⟨low4, high4⟩ := hterm h4 4 (by norm_num)
  obtain ⟨low5, high5⟩ := hterm h5 5 (by norm_num)
  obtain ⟨low6, high6⟩ := hterm h6 6 (by norm_num)
  rw [hp x, hp x']
  exact ⟨by linarith, by linarith⟩

/-- The polynomial of the sine, over its argument, falls slowly. -/
theorem f1_gap : x * f1 x - 0.17 * (x' - x) ≤ x' * f1 x' := by
  have hexpand : ∀ z : ℝ, z * f1 z = 1.3528548e-10 * z ^ 6 - 2.4703144e-08 * z ^ 5 + 2.7532926e-06 * z ^ 4 -
      0.00019840381 * z ^ 3 + 0.0083333179 * z ^ 2 - 0.16666666 * z := by
    intro z
    rw [f1]
    ring
  have hgap := (alternating_gap hlow hle hhigh hexpand (by norm_num) (by norm_num) (by norm_num) (by norm_num)
    (by norm_num)).1
  linarith

/-- The polynomial of the cosine falls about three times as fast. -/
theorem f2_gap : x' * f2 x' + 0.45 * (x' - x) ≤ x * f2 x ∧ x * f2 x ≤ x' * f2 x' + 0.51 * (x' - x) := by
  have hexpand : ∀ z : ℝ, z * f2 z = 1.7290616e-09 * z ^ 6 - 2.7093486e-07 * z ^ 5 + 2.4771643e-05 * z ^ 4 -
      0.0013887906 * z ^ 3 + 0.041666519 * z ^ 2 - 0.49999991 * z := by
    intro z
    rw [f2]
    ring
  obtain ⟨hlower, hupper⟩ := alternating_gap hlow hle hhigh hexpand (by norm_num) (by norm_num) (by norm_num)
    (by norm_num) (by norm_num)
  exact ⟨by linarith, by linarith⟩

end Quotient

section Beam

/-- Of two arguments that are not negative the larger has the larger quotient. -/
theorem quotient_lt {y y' : ℝ} (hlow : 0 ≤ y) (hlt : y < y') (hhigh : y' ≤ 7 / 10) :
    (y + y * y * y * f1 (y * y)) * (1 + y' * y' * f2 (y' * y')) <
      (y' + y' * y' * y' * f1 (y' * y')) * (1 + y * y * f2 (y * y)) := by
  have hsq : y * y ≤ y' * y' := mul_self_le_mul_self hlow hlt.le
  have hsq' : y' * y' ≤ 1 / 2 := (mul_self_le_mul_self (hlow.trans hlt.le) hhigh).trans (by norm_num)
  have hsin := f1_gap (mul_self_nonneg y) hsq hsq'
  have hcos := (f2_gap (mul_self_nonneg y) hsq hsq').1
  have hsinLow := f1_gap le_rfl (mul_self_nonneg y) (hsq.trans hsq')
  have hcosHigh := (f2_gap le_rfl (mul_self_nonneg y) (hsq.trans hsq')).1
  have hcosLow := (f2_gap le_rfl (mul_self_nonneg y') hsq').2
  rw [show y + y * y * y * f1 (y * y) = y * (1 + y * y * f1 (y * y)) by ring,
    show y' + y' * y' * y' * f1 (y' * y') = y' * (1 + y' * y' * f1 (y' * y')) by ring]
  generalize y * y * f1 (y * y) = a at *
  generalize y * y * f2 (y * y) = b at *
  generalize y' * y' * f1 (y' * y') = a' at *
  generalize y' * y' * f2 (y' * y') = b' at *
  have hquotient : (1 + a) * (1 + b') ≤ (1 + a') * (1 + b) := by
    have hfirst : (1 + a - 0.17 * (y' * y' - y * y)) * (1 + b) ≤ (1 + a') * (1 + b) :=
      mul_le_mul_of_nonneg_right (by linarith) (by linarith)
    have hsecond : (1 + a) * (1 + b' + 0.45 * (y' * y' - y * y)) ≤ (1 + a) * (1 + b) :=
      mul_le_mul_of_nonneg_left (by linarith) (by linarith)
    have hslower : 0 ≤ (0.45 * (1 + a) - 0.17 * (1 + b)) * (y' * y' - y * y) :=
      mul_nonneg (by linarith) (by linarith)
    linarith
  have hpos : 0 < (1 + a) * (1 + b') := mul_pos (by linarith) (by linarith)
  calc y * (1 + a) * (1 + b') = y * ((1 + a) * (1 + b')) := mul_assoc _ _ _
    _ < y' * ((1 + a) * (1 + b')) := mul_lt_mul_of_pos_right hlt hpos
    _ ≤ y' * ((1 + a') * (1 + b)) := mul_le_mul_of_nonneg_left hquotient (hlow.trans hlt.le)
    _ = y' * (1 + a') * (1 + b) := (mul_assoc _ _ _).symm

/-- The same on both sides of zero: the sine is odd, the cosine even and positive. -/
theorem quotient_strictMono {y y' : ℝ} (hlow : |y| ≤ 7 / 10) (hhigh : |y'| ≤ 7 / 10) (hlt : y < y') :
    (y + y * y * y * f1 (y * y)) * (1 + y' * y' * f2 (y' * y')) <
      (y' + y' * y' * y' * f1 (y' * y')) * (1 + y * y * f2 (y * y)) := by
  obtain ⟨hlow1, hlow2⟩ := abs_le.mp hlow
  obtain ⟨hhigh1, hhigh2⟩ := abs_le.mp hhigh
  have hcos : ∀ {z : ℝ}, |z| ≤ 7 / 10 → 0 < 1 + z * z * f2 (z * z) := by
    intro z hz
    have hsq : z * z ≤ 7 / 10 * (7 / 10) := abs_mul_abs_self z ▸ mul_self_le_mul_self (abs_nonneg z) hz
    have hfall := (f2_gap le_rfl (mul_self_nonneg z) (hsq.trans (by norm_num))).2
    linarith
  have hsin : ∀ {z : ℝ}, 0 < z → z ≤ 7 / 10 → 0 < z + z * z * z * f1 (z * z) := by
    intro z hz hz'
    have hquotient := quotient_lt le_rfl hz hz'
    linarith
  rcases le_or_gt 0 y with hy | hy
  · exact quotient_lt hy hlt hhigh2
  rcases le_or_gt y' 0 with hy' | hy'
  · have hquotient := quotient_lt (neg_nonneg.mpr hy') (neg_lt_neg hlt) (by linarith)
    simp only [mul_neg, neg_mul, neg_neg] at hquotient
    linarith
  · have hneg : y + y * y * y * f1 (y * y) < 0 := by
      have hpos := hsin (neg_pos.mpr hy) (by linarith)
      simp only [mul_neg, neg_mul, neg_neg] at hpos
      linarith
    exact (mul_neg_of_neg_of_pos hneg (hcos hhigh)).trans (mul_pos (hsin hy' hhigh2) (hcos hlow))

theorem foldHalfTurns_of_small {a : ℝ} (hlow : 0 ≤ a) (hsmall : a ≤ 1) : foldHalfTurns a = a := by
  have hzero : truncToInt (a * 0.31830988) = 0 := by
    rw [truncToInt_of_nonneg (by linarith), Int.floor_eq_zero_iff]
    exact ⟨by linarith, by linarith⟩
  simp [foldHalfTurns, hzero]

/-- Just before a whole turn the odd half turn is moved below zero. -/
theorem foldHalfTurns_of_late {a : ℝ} (hlow : 6 ≤ a) (hhigh : a < 6.28318) : foldHalfTurns a = a - 2 * mPi := by
  have hone : truncToInt (a * 0.31830988) = 1 := by
    rw [truncToInt_of_nonneg (by linarith), Int.floor_eq_iff]
    push_cast
    exact ⟨by linarith, by linarith⟩
  have hpos : 0 < a - mPi := by
    rw [mPi]
    linarith
  simp only [foldHalfTurns, hone, Int.cast_one, one_mul]
  rw [if_pos (by decide), if_pos hpos]
  ring

/-- Within a turn the direction is the angle, nearly. -/
theorem fastDirection_near {a : ℝ} (ha : |a| ≤ 7) : ∃ k : ℤ, |fastDirection a - a - k * (2 * Real.pi)| ≤ 4 * 1e-6 := by
  obtain ⟨hsin, hcos⟩ := near_within_turn ha
  exact abs_arg_sub_le (by norm_num) hcos hsin

/-- An angle whose direction is in the beam is early in the turn and not moved, or late and moved below zero. -/
theorem foldHalfTurns_of_beam {a : ℝ} (hlow : 0 ≤ a) (hhigh : a < 6.28318) (hbeam : |fastDirection a| ≤ 1e-3) :
    |foldHalfTurns a| ≤ 7 / 10 ∧
      (0 ≤ foldHalfTurns a ∧ foldHalfTurns a = a ∨ foldHalfTurns a < 0 ∧ foldHalfTurns a = a - 2 * mPi) := by
  obtain ⟨k, hk⟩ := fastDirection_near (abs_le.mpr ⟨by linarith, by linarith⟩ : |a| ≤ 7)
  obtain ⟨hk1, hk2⟩ := abs_le.mp hk
  obtain ⟨hb1, hb2⟩ := abs_le.mp hbeam
  have hpi1 := Real.pi_gt_d6
  have hmPi : (mPi : ℝ) = 3.1415926 := rfl
  have hbelow : k < 1 := by
    apply lt_of_periods_lt Real.two_pi_pos
    push_cast
    linarith
  have habove : -2 < k := by
    apply lt_of_periods_lt Real.two_pi_pos
    push_cast
    linarith
  obtain rfl | rfl : k = 0 ∨ k = -1 := by omega
  · push_cast at hk1
    rw [foldHalfTurns_of_small hlow (by linarith)]
    exact ⟨abs_le.mpr ⟨by linarith, by linarith⟩, .inl ⟨hlow, rfl⟩⟩
  · push_cast at hk2
    rw [foldHalfTurns_of_late (by linarith) hhigh]
    exact ⟨abs_le.mpr ⟨by linarith, by linarith⟩, .inr ⟨by linarith, rfl⟩⟩

/-- **Directions in a narrow beam around the first axis belong to one angle of the turn.** -/
theorem fastDirection_inj {a a' : ℝ} (ha : 0 ≤ a ∧ a < 6.28318) (ha' : 0 ≤ a' ∧ a' < 6.28318)
    (hbeam : |fastDirection a| ≤ 1e-3) (h : fastDirection a = fastDirection a') : a = a' := by
  obtain ⟨hsmall, hfold⟩ := foldHalfTurns_of_beam ha.1 ha.2 hbeam
  obtain ⟨hsmall', hfold'⟩ := foldHalfTurns_of_beam ha'.1 ha'.2 (h ▸ hbeam)
  have hcross : fastSin a * fastCos a' = fastSin a' * fastCos a := mul_re_eq_of_arg_eq h
  have hsame : foldHalfTurns a = foldHalfTurns a' := by
    rcases lt_trichotomy (foldHalfTurns a) (foldHalfTurns a') with hlt | heq | hgt
    · exact absurd hcross (quotient_strictMono hsmall hsmall' hlt).ne
    · exact heq
    · exact absurd hcross (quotient_strictMono hsmall' hsmall hgt).ne'
  rcases hfold with ⟨hside, heq⟩ | ⟨hside, heq⟩ <;> rcases hfold' with ⟨hside', heq'⟩ | ⟨hside', heq'⟩ <;> linarith

end Beam

end FocFirmware

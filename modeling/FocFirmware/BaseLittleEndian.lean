import Mathlib.Tactic.IntervalCases

/-! Words in memory, low byte first: how a word is put together from its four bytes, and where the four
bytes of a word can occur among the bytes of others. -/

namespace FocFirmware.LittleEndian

/-- Byte `k` of a word. -/
def byteOf (w : UInt32) (k : ℕ) : UInt8 := UInt8.ofNat (w.toNat >>> (8 * k))

/-- The word of four bytes. -/
def wordOf (b0 b1 b2 b3 : UInt8) : UInt32 :=
  UInt32.ofNat (b0.toNat + 256 * b1.toNat + 65536 * b2.toNat + 16777216 * b3.toNat)

theorem byteOf_toNat (w : UInt32) (k : ℕ) : (byteOf w k).toNat = w.toNat / 2 ^ (8 * k) % 256 := by
  rw [byteOf, UInt8.toNat_ofNat', Nat.shiftRight_eq_div_pow]

theorem byteOf_eq_iff (w v : UInt32) (k l : ℕ) :
    byteOf w k = byteOf v l ↔ w.toNat / 2 ^ (8 * k) % 256 = v.toNat / 2 ^ (8 * l) % 256 := by
  rw [← UInt8.toNat_inj, byteOf_toNat, byteOf_toNat]

theorem wordOf_byteOf (w : UInt32) : wordOf (byteOf w 0) (byteOf w 1) (byteOf w 2) (byteOf w 3) = w := by
  have hw := w.toNat_lt
  apply UInt32.toNat_inj.mp
  simp only [wordOf, byteOf_toNat, UInt32.toNat_ofNat']
  omega

/-- Byte `i` of a sequence of words. -/
def byteAt (words : ℕ → UInt32) (i : ℕ) : UInt8 := byteOf (words (i / 4)) (i % 4)

/-- The bytes of `p` begin at byte `r` of `w` and end in `v`. -/
def Straddles (p w v : UInt32) (r : ℕ) : Prop :=
  w.toNat / 256 ^ r = p.toNat % 256 ^ (4 - r) ∧ v.toNat % 256 ^ r = p.toNat / 256 ^ (4 - r)

/-- **Occurrences.** The bytes of a word occur at an offset exactly when the two words there share it. -/
theorem occurs_iff (p : UInt32) (words : ℕ → UInt32) (o : ℕ) :
    (∀ k < 4, byteAt words (o + k) = byteOf p k) ↔ Straddles p (words (o / 4)) (words (o / 4 + 1)) (o % 4) := by
  have hp := p.toNat_lt
  have hw := (words (o / 4)).toNat_lt
  have hv := (words (o / 4 + 1)).toNat_lt
  have hsplit : ∀ k < 4, byteAt words (o + k) =
      if o % 4 + k < 4 then byteOf (words (o / 4)) (o % 4 + k) else byteOf (words (o / 4 + 1)) (o % 4 + k - 4) := by
    intro k hk
    by_cases hsame : o % 4 + k < 4
    · rw [if_pos hsame, byteAt, show (o + k) / 4 = o / 4 by omega, show (o + k) % 4 = o % 4 + k by omega]
    · rw [if_neg hsame, byteAt, show (o + k) / 4 = o / 4 + 1 by omega, show (o + k) % 4 = o % 4 + k - 4 by omega]
  have hr : o % 4 < 4 := Nat.mod_lt _ (by decide)
  generalize words (o / 4) = w at *
  generalize words (o / 4 + 1) = v at *
  have hbytes : (∀ k < 4, byteAt words (o + k) = byteOf p k) ↔ byteAt words (o + 0) = byteOf p 0 ∧
      byteAt words (o + 1) = byteOf p 1 ∧ byteAt words (o + 2) = byteOf p 2 ∧ byteAt words (o + 3) = byteOf p 3 := by
    refine ⟨fun h => ⟨h 0 (by decide), h 1 (by decide), h 2 (by decide), h 3 (by decide)⟩, ?_⟩
    rintro ⟨h0, h1, h2, h3⟩ k hk
    interval_cases k
    · exact h0
    · exact h1
    · exact h2
    · exact h3
  rw [hbytes, hsplit 0 (by decide), hsplit 1 (by decide), hsplit 2 (by decide), hsplit 3 (by decide)]
  generalize o % 4 = r at *
  interval_cases r <;> norm_num [byteOf_eq_iff, Straddles] <;> omega

end FocFirmware.LittleEndian

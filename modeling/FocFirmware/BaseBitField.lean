import Mathlib.Data.Nat.Bitwise
import Mathlib.Tactic.Common

/-! Fields of a register word, with the reads and writes of a C bit-field: a write stores the low bits of
a value and leaves the rest of the word alone. -/

namespace FocFirmware.BitField

/-- A field by its lowest bit and its width. -/
structure Field where
  start : ℕ
  width : ℕ
  deriving DecidableEq

namespace Field

variable {w : ℕ} {f g : Field}

/-- Bit `i` of the word belongs to the field. -/
def Covers (f : Field) (i : ℕ) : Prop := f.start ≤ i ∧ i < f.start + f.width

instance (f : Field) (i : ℕ) : Decidable (f.Covers i) := inferInstanceAs (Decidable (_ ∧ _))

def Fits (f : Field) (w : ℕ) : Prop := f.start + f.width ≤ w

instance (f : Field) (w : ℕ) : Decidable (f.Fits w) := inferInstanceAs (Decidable (_ ≤ _))

/-- One field ends before the other begins. -/
def Apart (f g : Field) : Prop := f.start + f.width ≤ g.start ∨ g.start + g.width ≤ f.start

instance (f g : Field) : Decidable (f.Apart g) := inferInstanceAs (Decidable (_ ∨ _))

def get (f : Field) (r : BitVec w) : ℕ := (r >>> f.start).toNat % 2 ^ f.width

def mask (f : Field) (w : ℕ) : BitVec w := BitVec.ofNat w (2 ^ f.width - 1) <<< f.start

def set (f : Field) (v : ℕ) (r : BitVec w) : BitVec w :=
  r &&& ~~~f.mask w ||| BitVec.ofNat w (v % 2 ^ f.width) <<< f.start

theorem getLsbD_mask (f : Field) {i : ℕ} (hi : i < w) : (f.mask w).getLsbD i = decide (f.Covers i) := by
  have hword : i - f.start < w := lt_of_le_of_lt (Nat.sub_le _ _) hi
  simp only [mask, BitVec.getLsbD_shiftLeft, BitVec.getLsbD_ofNat, Nat.testBit_two_pow_sub_one, Covers, hi, hword,
    decide_true, Bool.true_and]
  by_cases hlow : i < f.start
  · simp [hlow, not_le.mpr hlow]
  · have hiff : i - f.start < f.width ↔ i < f.start + f.width := Nat.sub_lt_iff_lt_add' (not_lt.mp hlow)
    simp [hlow, not_lt.mp hlow, hiff]

theorem testBit_get (f : Field) (r : BitVec w) (j : ℕ) :
    (f.get r).testBit j = (decide (j < f.width) && r.getLsbD (f.start + j)) := by
  rw [get, Nat.testBit_mod_two_pow, BitVec.testBit_toNat, BitVec.getLsbD_ushiftRight]

theorem getLsbD_set (f : Field) (v : ℕ) (r : BitVec w) {i : ℕ} (hi : i < w) :
    (f.set v r).getLsbD i = if f.Covers i then v.testBit (i - f.start) else r.getLsbD i := by
  simp only [set, BitVec.getLsbD_or, BitVec.getLsbD_and, BitVec.getLsbD_not, getLsbD_mask f hi,
    BitVec.getLsbD_shiftLeft, BitVec.getLsbD_ofNat, Nat.testBit_mod_two_pow, hi, decide_true, Bool.true_and]
  by_cases hc : f.Covers i
  · have hlow : ¬i < f.start := not_lt.mpr hc.1
    have hwidth : i - f.start < f.width := by
      have := hc.2
      omega
    have hword : i - f.start < w := lt_of_le_of_lt (Nat.sub_le _ _) hi
    simp [hc, hlow, hwidth, hword]
  · rw [if_neg hc]
    by_cases hlow : i < f.start
    · simp [hc, hlow]
    · have hwidth : ¬i - f.start < f.width := by
        intro hlt
        exact hc ⟨not_lt.mp hlow, by omega⟩
      simp [hc, hwidth]

theorem get_lt (f : Field) (r : BitVec w) : f.get r < 2 ^ f.width := Nat.mod_lt _ (Nat.two_pow_pos _)

/-- **A field reads what was written to it**, cut to its width. -/
@[simp] theorem get_set_same (hfit : f.Fits w) (v : ℕ) (r : BitVec w) : f.get (f.set v r) = v % 2 ^ f.width := by
  apply Nat.eq_of_testBit_eq
  intro j
  rw [testBit_get, Nat.testBit_mod_two_pow]
  by_cases hj : j < f.width
  · have hword : f.start + j < w := lt_of_lt_of_le (Nat.add_lt_add_left hj _) hfit
    rw [getLsbD_set f v r hword, if_pos ⟨Nat.le_add_right _ _, Nat.add_lt_add_left hj _⟩, Nat.add_sub_cancel_left]
  · simp [hj]

/-- **A write leaves the fields apart from it alone.** -/
@[simp] theorem get_set_apart (hapart : f.Apart g) (v : ℕ) (r : BitVec w) : f.get (g.set v r) = f.get r := by
  apply Nat.eq_of_testBit_eq
  intro j
  rw [testBit_get, testBit_get]
  by_cases hj : j < f.width
  · by_cases hword : f.start + j < w
    · have hout : ¬g.Covers (f.start + j) := by
        rintro ⟨hge, hlt⟩
        rcases hapart with hapart | hapart <;> omega
      rw [getLsbD_set g v r hword, if_neg hout]
    · rw [BitVec.getLsbD_of_ge _ _ (not_lt.mp hword), BitVec.getLsbD_of_ge _ _ (not_lt.mp hword)]
  · simp [hj]

@[simp] theorem get_zero (f : Field) : f.get (0 : BitVec w) = 0 := by
  simp [get]

section Slots

/-- Field `i` of a word that is an array of fields. -/
def slot (width i : ℕ) : Field := ⟨i * width, width⟩

theorem slot_apart (width : ℕ) {i j : ℕ} (h : i ≠ j) : (slot width i).Apart (slot width j) := by
  rcases lt_or_gt_of_ne h with hlt | hlt
  · exact .inl ((Nat.succ_mul i width).ge.trans (Nat.mul_le_mul_right _ hlt))
  · exact .inr ((Nat.succ_mul j width).ge.trans (Nat.mul_le_mul_right _ hlt))

theorem slot_fits {width i n w : ℕ} (hi : i < n) (h : n * width ≤ w) : (slot width i).Fits w :=
  ((Nat.succ_mul i width).ge.trans (Nat.mul_le_mul_right _ hi)).trans h

/-- **A loop over the fields of a word** writes those selected and leaves the others alone. -/
theorem get_foldl_set {width n w : ℕ} (hw : n * width ≤ w) (selected : ℕ → Bool) (v : ℕ) (r : BitVec w) (j : ℕ) :
    (slot width j).get ((List.range n).foldl (fun r i => if selected i then (slot width i).set v r else r) r) =
      if j < n ∧ selected j then v % 2 ^ width else (slot width j).get r := by
  have hprefix : ∀ m ≤ n, (slot width j).get
      ((List.range m).foldl (fun r i => if selected i then (slot width i).set v r else r) r) =
        if j < m ∧ selected j then v % 2 ^ width else (slot width j).get r := by
    intro m
    induction m with
    | zero => simp
    | succ m ih =>
        intro hm
        have hbefore := ih (Nat.le_of_succ_le hm)
        rw [List.range_succ, List.foldl_append, List.foldl_cons, List.foldl_nil]
        generalize (List.range m).foldl (fun r i => if selected i then (slot width i).set v r else r) r = r' at hbefore ⊢
        by_cases hj : j = m
        · subst hj
          by_cases hsel : selected j
          · rw [if_pos hsel, get_set_same (slot_fits hm hw)]
            simp [slot, hsel]
          · simpa [hsel] using hbefore
        · have hiff : j < m + 1 ↔ j < m := by omega
          simp only [hiff, ← hbefore]
          split_ifs
          · exact get_set_apart (slot_apart width hj) v r'
          · rfl
  exact hprefix n le_rfl

end Slots

end Field

end FocFirmware.BitField

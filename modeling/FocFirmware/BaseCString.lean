import Mathlib.Data.List.Basic

/-! C strings as the list of their bytes without the terminator, and the searches for the first and the
last occurrence of a byte. -/

namespace FocFirmware.CStrings

/-- A NUL-terminated string: its bytes before the terminator. -/
structure CString where
  bytes : List UInt8
  nonzero : 0 ∉ bytes

/-- A string literal of ASCII characters. -/
def ascii (literal : String) : List UInt8 := literal.toList.map fun c => UInt8.ofNat c.toNat

section Search

variable {α : Type} [DecidableEq α]

/-- The offset of the first `c`. -/
def strchr : List α → α → Option ℕ
  | [], _ => none
  | x :: s, c => if x = c then some 0 else (strchr s c).map (· + 1)

/-- The offset of the last `c`. -/
def strrchr : List α → α → Option ℕ
  | [], _ => none
  | x :: s, c =>
      match strrchr s c with
      | some k => some (k + 1)
      | none => if x = c then some 0 else none

variable {s : List α} {c : α} {k : ℕ}

theorem strrchr_eq_none_iff : strrchr s c = none ↔ c ∉ s := by
  induction s with
  | nil => exact iff_of_true rfl List.not_mem_nil
  | cons x s ih =>
      unfold strrchr
      cases hs : strrchr s c with
      | some k => simpa [hs] using fun _ => ih
      | none => simpa [hs, eq_comm] using fun _ => ih

/-- The first occurrence splits the string before it. -/
theorem strchr_append {before after : List α} (h : c ∉ before) :
    strchr (before ++ c :: after) c = some before.length := by
  induction before with
  | nil => exact if_pos rfl
  | cons x before ih =>
      obtain ⟨hx, hbefore⟩ := not_or.mp (List.mem_cons.not.mp h)
      rw [List.cons_append, strchr, if_neg (Ne.symm hx), ih hbefore]
      rfl

theorem strchr_eq_some (h : strchr s c = some k) :
    s = s.take k ++ c :: s.drop (k + 1) ∧ c ∉ s.take k ∧ (s.take k).length = k := by
  induction s generalizing k with
  | nil => exact nomatch h
  | cons x s ih =>
      rw [strchr] at h
      by_cases hx : x = c
      · rw [if_pos hx, Option.some.injEq] at h
        subst h hx
        simp
      · rw [if_neg hx, Option.map_eq_some_iff] at h
        obtain ⟨j, hj, rfl⟩ := h
        obtain ⟨hsplit, hfirst, hlen⟩ := ih hj
        refine ⟨congrArg (x :: ·) hsplit, ?_, congrArg (· + 1) hlen⟩
        exact List.mem_cons.not.mpr (not_or.mpr ⟨Ne.symm hx, hfirst⟩)

/-- The last occurrence splits the string behind it. -/
theorem strrchr_append {before after : List α} (h : c ∉ after) :
    strrchr (before ++ c :: after) c = some before.length := by
  induction before with
  | nil => rw [List.nil_append, strrchr, strrchr_eq_none_iff.mpr h, if_pos rfl, List.length_nil]
  | cons x before ih => rw [List.cons_append, strrchr, ih, List.length_cons]

theorem strrchr_eq_some (h : strrchr s c = some k) :
    s = s.take k ++ c :: s.drop (k + 1) ∧ c ∉ s.drop (k + 1) ∧ (s.take k).length = k := by
  induction s generalizing k with
  | nil => exact nomatch h
  | cons x s ih =>
      rw [strrchr] at h
      cases hs : strrchr s c with
      | some j =>
          rw [hs, Option.some.injEq] at h
          subst h
          obtain ⟨hsplit, hlast, hlen⟩ := ih hs
          exact ⟨congrArg (x :: ·) hsplit, hlast, congrArg (· + 1) hlen⟩
      | none =>
          rw [hs] at h
          by_cases hx : x = c
          · simp only [if_pos hx, Option.some.injEq] at h
            subst h hx
            exact ⟨rfl, strrchr_eq_none_iff.mp hs, rfl⟩
          · simp only [if_neg hx] at h
            exact nomatch h

end Search

end FocFirmware.CStrings

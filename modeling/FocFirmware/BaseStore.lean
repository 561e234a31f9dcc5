import FocFirmware.BaseRuns

/-! Stores that are written one cell at a time. A system is such a store when every event either writes one
cell or does nothing, and its cells determine its state; a run then leaves in each cell what was written
there last. -/

namespace FocFirmware.Stores

open Runs

variable {S E C V : Type*} [DecidableEq C]

/-- The events of `step` write single cells: `write` tells which, and with what. -/
structure IsStore (step : S → E → S) (read : S → C → V) (write : E → Option (C × V)) : Prop where
  silent : ∀ s e, write e = none → step s e = s
  written : ∀ s e c v, write e = some (c, v) → ∀ c', read (step s e) c' = if c' = c then v else read s c'
  determined : ∀ s t, (∀ c, read s c = read t c) → s = t

/-- No event of the list writes this cell. -/
def Untouched (write : E → Option (C × V)) (c : C) (events : List E) : Prop :=
  ∀ e ∈ events, ∀ v, write e ≠ some (c, v)

namespace IsStore

variable {step : S → E → S} {read : S → C → V} {write : E → Option (C × V)} (h : IsStore step read write)

include h

theorem read_other {s : S} {e : E} {c : C} (hother : ∀ v, write e ≠ some (c, v)) : read (step s e) c = read s c := by
  cases hwrite : write e with
  | none => rw [h.silent s e hwrite]
  | some cell =>
      obtain ⟨c', v⟩ := cell
      have hne : c ≠ c' := by
        rintro rfl
        exact hother v hwrite
      rw [h.written s e c' v hwrite, if_neg hne]

/-- **Last write wins.** A cell is as it was, or as the last event that wrote it left it. -/
theorem read_run (c : C) (s : S) (events : List E) :
    (read (run step s events) c = read s c ∧ Untouched write c events) ∨
      ∃ first e last v, events = first ++ e :: last ∧ write e = some (c, v) ∧ Untouched write c last ∧
        read (run step s events) c = v := by
  induction events generalizing s with
  | nil => exact .inl ⟨rfl, fun e he => nomatch he⟩
  | cons e events ih =>
      rcases ih (step s e) with ⟨hkept, hnone⟩ | ⟨first, e', last, v, rfl, hwrite, hlast, hread⟩
      · by_cases hwrite : ∃ v, write e = some (c, v)
        · obtain ⟨v, hv⟩ := hwrite
          refine .inr ⟨[], e, events, v, rfl, hv, hnone, ?_⟩
          rw [run_cons, hkept, h.written s e c v hv, if_pos rfl]
        · have hother : ∀ v, write e ≠ some (c, v) := fun v hv => hwrite ⟨v, hv⟩
          refine .inl ⟨?_, ?_⟩
          · rw [run_cons, hkept, h.read_other hother]
          · intro e' he'
            rcases List.mem_cons.mp he' with rfl | he'
            · exact hother
            · exact hnone e' he'
      · exact .inr ⟨e :: first, e', last, v, rfl, hwrite, hlast, hread⟩

theorem run_delete {e : E} (hsilent : write e = none) (s : S) (first last : List E) :
    run step s (first ++ e :: last) = run step s (first ++ last) := by
  rw [run_append, run_append, run_cons, h.silent _ e hsilent]

/-- Writes of different cells commute. -/
theorem step_comm {e e' : E} {c c' : C} {v v' : V} (hwrite : write e = some (c, v)) (hwrite' : write e' = some (c', v'))
    (hne : c ≠ c') (s : S) : step (step s e) e' = step (step s e') e := by
  apply h.determined
  intro d
  rw [h.written _ e' c' v' hwrite', h.written _ e c v hwrite, h.written _ e c v hwrite, h.written _ e' c' v' hwrite']
  by_cases hd : d = c
  · subst hd
    simp [hne]
  · simp [hd]

end IsStore

end FocFirmware.Stores

import FocFirmware.BaseRuns
import Mathlib.Data.List.Count
import Mathlib.Order.Nat

/-! One processor under interrupts of equal priority. A pending interrupt is served before the main program
goes on, of several the first in a fixed order, and no handler interrupts another. The hardware raises
interrupts between any two steps. -/

namespace FocFirmware.Interrupts

open Runs

/-- `order` is that of the interrupt numbers. -/
structure Controller (S I : Type*) where
  order : List I
  pending : S → I → Bool
  handler : I → S → S
  main : S → S

inductive Event (H : Type*) where
  | cpu
  | hardware (h : H)

def Event.isCpu {H : Type*} : Event H → Bool
  | .cpu => true
  | .hardware _ => false

namespace Controller

variable {S I H T : Type*} (c : Controller S I) (hardware : H → S → S)

/-- The interrupt that is served next. -/
def next (s : S) : Option I := c.order.find? (c.pending s)

def cpuStep (s : S) : S :=
  match c.next s with
  | some i => c.handler i s
  | none => c.main s

def step (s : S) : Event H → S
  | .cpu => c.cpuStep s
  | .hardware h => hardware h s

/-- Whether an event is the processor serving `i`. -/
def serves [DecidableEq I] (i : I) (s : S) : Event H → Bool
  | .cpu => decide (c.next s = some i)
  | .hardware _ => false

/-- How often `i` is served in a run. -/
def served [DecidableEq I] (i : I) : S → List (Event H) → ℕ
  | _, [] => 0
  | s, e :: events => (c.serves i s e).toNat + served i (c.step hardware s e) events

variable {c hardware}

theorem pending_of_next {s : S} {i : I} (h : c.next s = some i) : c.pending s i = true := List.find?_some h

theorem exists_next {s : S} {i : I} (hi : i ∈ c.order) (h : c.pending s i = true) : ∃ j, c.next s = some j :=
  Option.isSome_iff_exists.mp (List.find?_isSome.mpr ⟨i, hi, h⟩)

theorem cpuStep_of_next {s : S} {i : I} (h : c.next s = some i) : c.cpuStep s = c.handler i s := by rw [cpuStep, h]

theorem cpuStep_of_none {s : S} (h : c.next s = none) : c.cpuStep s = c.main s := by rw [cpuStep, h]

/-- **Invariants.** A relation between what has happened and the state that the main program, the handlers
and the hardware keep holds at the end of every run. -/
theorem history_run (inv : List (Event H) → S → Prop) {s : S} (h : inv [] s)
    (hmain : ∀ past s, inv past s → c.next s = none → inv (past ++ [.cpu]) (c.main s))
    (hhandler : ∀ past s i, inv past s → c.pending s i = true → inv (past ++ [.cpu]) (c.handler i s))
    (hhardware : ∀ past s e, inv past s → inv (past ++ [.hardware e]) (hardware e s)) (events : List (Event H)) :
    inv events (run (c.step hardware) s events) := by
  induction events using List.reverseRecOn with
  | nil => exact h
  | append_singleton past e ih =>
      rw [run_concat]
      cases e with
      | hardware e => exact hhardware past _ e ih
      | cpu =>
          cases hnext : c.next (run (c.step hardware) s past) with
          | some i =>
              rw [step, cpuStep_of_next hnext]
              exact hhandler past _ i ih (pending_of_next hnext)
          | none =>
              rw [step, cpuStep_of_none hnext]
              exact hmain past _ ih hnext

theorem served_concat [DecidableEq I] (i : I) (s : S) (events : List (Event H)) (e : Event H) :
    c.served hardware i s (events ++ [e]) =
      c.served hardware i s events + (c.serves i (run (c.step hardware) s events) e).toNat := by
  induction events generalizing s with
  | nil => simp [served]
  | cons first events ih => rw [List.cons_append, served, served, ih, run_cons, Nat.add_assoc]

/-- The same with the number of times that `i` has been served. -/
theorem history_served [DecidableEq I] (i : I) (inv : ℕ → List (Event H) → S → Prop) {s : S} (h : inv 0 [] s)
    (hmain : ∀ n past s, inv n past s → c.next s = none → inv n (past ++ [.cpu]) (c.main s))
    (hhandler : ∀ n past s j, inv n past s → c.next s = some j →
      inv (n + if j = i then 1 else 0) (past ++ [.cpu]) (c.handler j s))
    (hhardware : ∀ n past s e, inv n past s → inv n (past ++ [.hardware e]) (hardware e s)) (events : List (Event H)) :
    inv (c.served hardware i s events) events (run (c.step hardware) s events) := by
  induction events using List.reverseRecOn with
  | nil => exact h
  | append_singleton past e ih =>
      rw [served_concat, run_concat]
      generalize run (c.step hardware) s past = t at ih ⊢
      cases e with
      | hardware e => exact hhardware _ past _ e ih
      | cpu =>
          cases hnext : c.next t with
          | some j =>
              rw [serves, step, cpuStep_of_next hnext, hnext]
              have hnow := hhandler _ past _ j ih hnext
              by_cases hj : j = i
              · simpa [hj] using hnow
              · simpa [hj] using hnow
          | none =>
              rw [serves, step, cpuStep_of_none hnext, hnext]
              exact hmain _ past _ ih hnext

/-- **Two systems.** Related states with the same interrupts pending are served alike, and stay related. -/
theorem related_run {S' : Type*} {c' : Controller S' I} {hardware' : H → S' → S'} (rel : S → S' → Prop)
    (horder : c.order = c'.order) (hpending : ∀ s s', rel s s' → c.pending s = c'.pending s')
    (hmain : ∀ s s', rel s s' → rel (c.main s) (c'.main s'))
    (hhandler : ∀ s s' i, rel s s' → rel (c.handler i s) (c'.handler i s'))
    (hhardware : ∀ s s' e, rel s s' → rel (hardware e s) (hardware' e s')) {s : S} {s' : S'} (h : rel s s')
    (events : List (Event H)) : rel (run (c.step hardware) s events) (run (c'.step hardware') s' events) := by
  induction events generalizing s s' with
  | nil => exact h
  | cons e events ih =>
      apply ih
      cases e with
      | hardware e => exact hhardware s s' e h
      | cpu =>
          have hsame : c.next s = c'.next s' := by rw [next, next, horder, hpending s s' h]
          cases hnext : c.next s with
          | some i =>
              rw [step, step, cpuStep_of_next hnext, cpuStep_of_next (hsame ▸ hnext)]
              exact hhandler s s' i h
          | none =>
              rw [step, step, cpuStep_of_none hnext, cpuStep_of_none (hsame ▸ hnext)]
              exact hmain s s' h

/-- **Starvation.** While some interrupt is pending whatever is served, the main program does not move: what
only it changes stays. -/
theorem view_run_of_stuck (stuck : S → Prop) (view : S → T) (hpending : ∀ s, stuck s → ∃ i ∈ c.order, c.pending s i = true)
    (hhandler : ∀ s i, stuck s → c.pending s i = true → stuck (c.handler i s) ∧ view (c.handler i s) = view s)
    (hhardware : ∀ s h, stuck s → stuck (hardware h s) ∧ view (hardware h s) = view s) {s : S} (h : stuck s)
    (events : List (Event H)) :
    stuck (run (c.step hardware) s events) ∧ view (run (c.step hardware) s events) = view s := by
  refine run_invariant (fun t => stuck t ∧ view t = view s) (fun t e ⟨ht, hview⟩ => ?_) ⟨h, rfl⟩ events
  cases e with
  | hardware h => exact ⟨(hhardware t h ht).1, (hhardware t h ht).2.trans hview⟩
  | cpu =>
      obtain ⟨i, hi, hpend⟩ := hpending t ht
      obtain ⟨j, hnext⟩ := exists_next hi hpend
      rw [step, cpuStep_of_next hnext]
      obtain ⟨hstuck, hsame⟩ := hhandler t j ht (pending_of_next hnext)
      exact ⟨hstuck, hsame.trans hview⟩

/-- The main program goes on when every interrupt that is served lowers a number. -/
theorem reaches_main (served : S → Prop) (left : S → ℕ)
    (hhandler : ∀ s i, served s → c.next s = some i → served (c.handler i s) ∧ left (c.handler i s) < left s)
    {s : S} (h : served s) : ∃ n ≤ left s, c.next (run (c.step hardware) s (List.replicate n .cpu)) = none := by
  induction hleft : left s using Nat.strong_induction_on generalizing s with
  | _ k ih =>
      cases hnext : c.next s with
      | none => exact ⟨0, Nat.zero_le _, hnext⟩
      | some i =>
          obtain ⟨hserved, hlt⟩ := hhandler s i h hnext
          obtain ⟨n, hn, hmain⟩ := ih _ (hleft ▸ hlt) hserved rfl
          refine ⟨n + 1, by omega, ?_⟩
          rw [List.replicate_succ, run_cons, step, cpuStep_of_next hnext]
          exact hmain

/-- **Response.** A pending interrupt is served once its blockers are used up: a number that the hardware does
not raise and every other handler lowers. -/
theorem served_within {i : I} (hi : i ∈ c.order) (blockers : S → ℕ)
    (hhandler : ∀ s j, c.next s = some j → j ≠ i → c.pending s i = true →
      c.pending (c.handler j s) i = true ∧ blockers (c.handler j s) < blockers s)
    (hhardware : ∀ s h, c.pending s i = true → c.pending (hardware h s) i = true ∧ blockers (hardware h s) ≤ blockers s)
    {s : S} (h : c.pending s i = true) (events : List (Event H)) (hcount : blockers s < events.countP Event.isCpu) :
    ∃ first last, events = first ++ .cpu :: last ∧ first.countP Event.isCpu ≤ blockers s ∧
      c.next (run (c.step hardware) s first) = some i := by
  induction events generalizing s with
  | nil => exact absurd hcount (Nat.not_lt_zero _)
  | cons e events ih =>
      cases e with
      | hardware e =>
          obtain ⟨hpend, hle⟩ := hhardware s e h
          rw [List.countP_cons_of_neg (by simp [Event.isCpu])] at hcount
          obtain ⟨first, last, rfl, hfirst, hnext⟩ := ih hpend (hle.trans_lt hcount)
          refine ⟨.hardware e :: first, last, rfl, ?_, hnext⟩
          rw [List.countP_cons_of_neg (by simp [Event.isCpu])]
          exact hfirst.trans hle
      | cpu =>
          obtain ⟨j, hnext⟩ := exists_next hi h
          by_cases hj : j = i
          · exact ⟨[], events, rfl, Nat.zero_le _, hj ▸ hnext⟩
          · obtain ⟨hpend, hlt⟩ := hhandler s j hnext hj h
            rw [List.countP_cons_of_pos (by simp [Event.isCpu])] at hcount
            rw [← cpuStep_of_next hnext] at hpend hlt
            obtain ⟨first, last, rfl, hfirst, hserved⟩ := ih hpend (by omega)
            refine ⟨.cpu :: first, last, rfl, ?_, hserved⟩
            rw [List.countP_cons_of_pos (by simp [Event.isCpu])]
            omega

end Controller

end FocFirmware.Interrupts

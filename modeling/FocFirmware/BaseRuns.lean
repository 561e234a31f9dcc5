import Mathlib.Data.List.Induction
import Mathlib.Logic.Basic

/-! Runs of a deterministic system under an arbitrary sequence of events. The events carry every
choice that is not the system's own: the order in which parties act and the data they act with. -/

namespace FocFirmware.Runs

variable {S E : Type*} {step : S → E → S}

def run (step : S → E → S) (s : S) (events : List E) : S := events.foldl step s

@[simp] theorem run_nil (s : S) : run step s [] = s := rfl

@[simp] theorem run_cons (s : S) (e : E) (events : List E) :
    run step s (e :: events) = run step (step s e) events := rfl

theorem run_append (s : S) (first second : List E) :
    run step s (first ++ second) = run step (run step s first) second := List.foldl_append

theorem run_concat (s : S) (events : List E) (e : E) :
    run step s (events ++ [e]) = step (run step s events) e := by
  rw [run_append, run_cons, run_nil]

/-- **Refinement.** A view of the state that every step respects is respected by every run. -/
theorem run_map {T F : Type*} {step' : T → F → T} (view : S → T) (seen : E → F)
    (hview : ∀ s e, view (step s e) = step' (view s) (seen e)) (s : S) (events : List E) :
    view (run step s events) = run step' (view s) (events.map seen) := by
  induction events generalizing s with
  | nil => rfl
  | cons e events ih => rw [run_cons, ih, hview, List.map_cons, run_cons]

/-- **Simulation.** A relation of two systems that every event keeps holds at the end of every run of both. -/
theorem run_related {T : Type*} {step' : T → E → T} (rel : S → T → Prop)
    (hkeep : ∀ s t e, rel s t → rel (step s e) (step' t e)) {s : S} {t : T} (h : rel s t) (events : List E) :
    rel (run step s events) (run step' t events) := by
  induction events generalizing s t with
  | nil => exact h
  | cons e events ih => exact ih (hkeep s t e h)

/-- What every event keeps holds at the end of every run. -/
theorem run_invariant (inv : S → Prop) (hkeep : ∀ s e, inv s → inv (step s e)) {s : S} (h : inv s) (events : List E) :
    inv (run step s events) := by
  induction events generalizing s with
  | nil => exact h
  | cons e events ih => exact ih (hkeep s e h)

/-- What is written one entry at a time has been each of its prefixes. -/
theorem exists_written {L : Type*} (log : S → List L) (inv : S → Prop)
    (hkeep : ∀ s e, inv s → inv (step s e) ∧ (log (step s e) = log s ∨ ∃ a, log (step s e) = log s ++ [a])) {s : S}
    (hs : inv s) (hstart : log s = []) (events : List E) {l : List L} (hl : l <+: log (run step s events)) :
    ∃ first, first <+: events ∧ log (run step s first) = l := by
  induction events using List.reverseRecOn with
  | nil =>
      rw [run_nil, hstart] at hl
      exact ⟨[], List.prefix_rfl, hstart.trans (List.prefix_nil.mp hl).symm⟩
  | append_singleton events e ih =>
      have hinv : inv (run step s events) := run_invariant inv (fun s e h => (hkeep s e h).1) hs events
      have hearlier : ∀ h : l <+: log (run step s events), ∃ first, first <+: events ++ [e] ∧ log (run step s first) = l := by
        intro h
        obtain ⟨first, hfirst, hlog⟩ := ih h
        exact ⟨first, hfirst.trans (List.prefix_append _ _), hlog⟩
      rw [run_concat] at hl
      rcases (hkeep _ e hinv).2 with hsame | ⟨a, hlog⟩
      · rw [hsame] at hl
        exact hearlier hl
      · rw [hlog, List.prefix_concat_iff] at hl
        rcases hl with rfl | hl
        · exact ⟨events ++ [e], List.prefix_rfl, by rw [run_concat, hlog]⟩
        · exact hearlier hl

/-- Every event of the run meets a condition on the state it happens in. -/
def Along (step : S → E → S) (c : S → E → Prop) : S → List E → Prop
  | _, [] => True
  | s, e :: events => c s e ∧ Along step c (step s e) events

/-- Every state of the run satisfies `p`, the first and the last one included. -/
def Throughout (step : S → E → S) (p : S → Prop) (s : S) (events : List E) : Prop :=
  ∀ first, first <+: events → p (run step s first)

theorem throughout_nil {p : S → Prop} {s : S} : Throughout step p s [] ↔ p s := by
  constructor
  · intro h
    exact h [] List.prefix_rfl
  · intro h first hfirst
    rw [List.prefix_nil.mp hfirst]
    exact h

theorem throughout_cons {p : S → Prop} {s : S} {e : E} {events : List E} :
    Throughout step p s (e :: events) ↔ p s ∧ Throughout step p (step s e) events := by
  constructor
  · intro h
    refine ⟨h [] List.nil_prefix, fun first hfirst => ?_⟩
    exact h (e :: first) (List.cons_prefix_cons.mpr ⟨rfl, hfirst⟩)
  · rintro ⟨hs, h⟩ first hfirst
    cases first with
    | nil => exact hs
    | cons e' first =>
        obtain ⟨rfl, hrest⟩ := List.cons_prefix_cons.mp hfirst
        exact h first hrest

/-- When an invariant gives `p`, allowed events keep the invariant and any other event breaks `p` at
once, the runs that satisfy `p` throughout are those whose events are all allowed. -/
theorem throughout_iff_along (inv : S → Prop) {p : S → Prop} {c : S → E → Prop} (hinv : ∀ s, inv s → p s)
    (hkeep : ∀ s e, inv s → c s e → inv (step s e)) (hbreak : ∀ s e, inv s → ¬c s e → ¬p (step s e))
    {s : S} (h : inv s) (events : List E) : Throughout step p s events ↔ Along step c s events := by
  induction events generalizing s with
  | nil => exact throughout_nil.trans (iff_of_true (hinv s h) trivial)
  | cons e events ih =>
      rw [throughout_cons, Along]
      constructor
      · rintro ⟨-, hrest⟩
        have hc : c s e := by
          by_contra hc
          exact hbreak s e h hc (hrest [] List.nil_prefix)
        exact ⟨hc, (ih (hkeep s e h hc)).mp hrest⟩
      · rintro ⟨hc, hrest⟩
        exact ⟨hinv s h, (ih (hkeep s e h hc)).mpr hrest⟩

/-- **The last write counts.** What every event writes or leaves alone is, at the end of a run, what the last
event that wrote it wrote. -/
theorem run_last_write {T : Type*} (view : S → T) (write : E → Option T)
    (hwrite : ∀ s e, view (step s e) = (write e).getD (view s)) (s : S) (events : List E) :
    view (run step s events) = (events.reverse.findSome? write).getD (view s) := by
  induction events using List.reverseRecOn with
  | nil => rfl
  | append_singleton events e ih =>
      rw [run_concat, hwrite, ih, List.reverse_append, List.reverse_singleton, List.singleton_append, List.findSome?_cons]
      cases write e <;> rfl

/-- When all writes agree, their order and their number do not matter. -/
theorem run_agreed {T : Type*} (view : S → T) (write : E → Option T)
    (hwrite : ∀ s e, view (step s e) = (write e).getD (view s)) (s : S) {events : List E} {agreed : Option T}
    (hagree : ∀ x, agreed = some x ↔ ∃ e ∈ events, write e = some x) : view (run step s events) = agreed.getD (view s) := by
  rw [run_last_write view write hwrite]
  congr 1
  cases hlast : events.reverse.findSome? write with
  | some x =>
      obtain ⟨e, he, hx⟩ := List.exists_of_findSome?_eq_some hlast
      exact ((hagree x).mpr ⟨e, List.mem_reverse.mp he, hx⟩).symm
  | none =>
      cases hagreed : agreed with
      | none => rfl
      | some x =>
          obtain ⟨e, he, hx⟩ := (hagree x).mp hagreed
          have hnone := List.findSome?_eq_none_iff.mp hlast e (List.mem_reverse.mpr he)
          rw [hx] at hnone
          cases hnone

/-- A condition that each event sets, clears or leaves alone holds after a run from a state without
it exactly when the last event that did not leave it alone set it. -/
theorem holds_iff_last_set {p : S → Prop} {sets : S → E → Prop} {touches : E → Prop}
    (hset : ∀ s e, touches e → (p (step s e) ↔ sets s e)) (hleave : ∀ s e, ¬touches e → (p (step s e) ↔ p s))
    {s : S} (h : ¬p s) (events : List E) :
    p (run step s events) ↔ ∃ first e last, events = first ++ e :: last ∧ touches e ∧
      sets (run step s first) e ∧ ∀ e' ∈ last, ¬touches e' := by
  induction events using List.reverseRecOn with
  | nil =>
      apply iff_of_false h
      rintro ⟨first, e, last, hsplit, -⟩
      exact List.append_ne_nil_of_right_ne_nil first (List.cons_ne_nil e last) hsplit.symm
  | append_singleton events e ih =>
      rw [run_concat]
      by_cases ht : touches e
      · rw [hset _ _ ht]
        constructor
        · intro hs
          exact ⟨events, e, [], rfl, ht, hs, by simp⟩
        · rintro ⟨first, e', last, hsplit, -, hs, hlast⟩
          rcases List.eq_nil_or_concat last with rfl | ⟨last, e'', rfl⟩
          · obtain ⟨rfl, heq⟩ := List.append_inj' hsplit rfl
            cases heq
            exact hs
          · rw [List.concat_eq_append, ← List.cons_append, ← List.append_assoc] at hsplit
            obtain ⟨-, heq⟩ := List.append_inj' hsplit rfl
            cases heq
            exact absurd ht (hlast e (by simp))
      · rw [hleave _ _ ht, ih]
        constructor
        · rintro ⟨first, e', last, rfl, ht', hs, hlast⟩
          refine ⟨first, e', last ++ [e], by simp, ht', hs, fun x hx => ?_⟩
          rcases List.mem_append.mp hx with hx | hx
          · exact hlast x hx
          · rwa [List.mem_singleton.mp hx]
        · rintro ⟨first, e', last, hsplit, ht', hs, hlast⟩
          rcases List.eq_nil_or_concat last with rfl | ⟨last, e'', rfl⟩
          · obtain ⟨-, heq⟩ := List.append_inj' hsplit rfl
            cases heq
            exact absurd ht' ht
          · rw [List.concat_eq_append, ← List.cons_append, ← List.append_assoc] at hsplit
            obtain ⟨rfl, -⟩ := List.append_inj' hsplit rfl
            exact ⟨first, e', last, rfl, ht', hs, fun x hx => hlast x (by simp [hx])⟩

end FocFirmware.Runs

import Mathlib.Data.List.Basic
import Mathlib.Logic.Basic

/-! Calls that talk to a device. A call is the tree of its requests, with a branch for every answer; a device
gives the answers. What a call can be seen to do is read off the tree, and some device makes it do each of that. -/

namespace FocFirmware.Calls

/-- A call has a result, or makes a request and goes on with the answer. -/
inductive Call (R : Type*) (A : R → Type*) (α : Type*) where
  | done (a : α)
  | ask (r : R) (next : A r → Call R A α)

/-- A request with its answer. -/
abbrev Access {R : Type*} (A : R → Type*) : Type _ := (r : R) × A r

/-- A device with state `σ`. -/
abbrev Device {R : Type*} (A : R → Type*) (σ : Type*) : Type _ := (r : R) → σ → A r × σ

variable {R : Type*} {A : R → Type*} {α β σ τ : Type*}

namespace Call

def bind : Call R A α → (α → Call R A β) → Call R A β
  | done a, k => k a
  | ask r next, k => ask r fun a => (next a).bind k

/-- The call from start to end. -/
def exec (dev : Device A σ) : Call R A α → σ → α × σ
  | done a, s => (a, s)
  | ask r next, s => (next (dev r s).1).exec dev (dev r s).2

theorem exec_bind (dev : Device A σ) (c : Call R A α) (k : α → Call R A β) (s : σ) :
    (c.bind k).exec dev s = (k (c.exec dev s).1).exec dev (c.exec dev s).2 := by
  induction c generalizing s with
  | done a => rfl
  | ask r next ih => exact ih _ _

/-- The accesses of a call that ends with `a`. -/
inductive Trace : Call R A α → List (Access A) → α → Prop where
  | done (a : α) : Trace (.done a) [] a
  | ask {r : R} {next : A r → Call R A α} (answer : A r) {t : List (Access A)} {a : α} (h : Trace (next answer) t a) :
      Trace (.ask r next) (⟨r, answer⟩ :: t) a

theorem trace_done {a b : α} {t : List (Access A)} : Trace (.done a) t b ↔ t = [] ∧ a = b := by
  constructor
  · rintro ⟨⟩
    exact ⟨rfl, rfl⟩
  · rintro ⟨rfl, rfl⟩
    exact .done a

theorem trace_ask {r : R} {next : A r → Call R A α} {t : List (Access A)} {a : α} :
    Trace (.ask r next) t a ↔ ∃ answer rest, t = ⟨r, answer⟩ :: rest ∧ Trace (next answer) rest a := by
  constructor
  · rintro (_ | ⟨answer, h⟩)
    exact ⟨answer, _, rfl, h⟩
  · rintro ⟨answer, rest, rfl, h⟩
    exact .ask answer h

theorem trace_bind {c : Call R A α} {k : α → Call R A β} {t : List (Access A)} {b : β} :
    Trace (c.bind k) t b ↔ ∃ a first rest, t = first ++ rest ∧ Trace c first a ∧ Trace (k a) rest b := by
  induction c generalizing t with
  | done a =>
      constructor
      · intro h
        exact ⟨a, [], t, rfl, .done a, h⟩
      · rintro ⟨a', first, rest, rfl, hfirst, hrest⟩
        obtain ⟨rfl, rfl⟩ := trace_done.mp hfirst
        exact hrest
  | ask r next ih =>
      constructor
      · intro h
        obtain ⟨answer, later, rfl, hlater⟩ := trace_ask.mp h
        obtain ⟨a, first, rest, rfl, hfirst, hrest⟩ := (ih answer).mp hlater
        exact ⟨a, ⟨r, answer⟩ :: first, rest, rfl, .ask answer hfirst, hrest⟩
      · rintro ⟨a, first, rest, rfl, hfirst, hrest⟩
        obtain ⟨answer, later, rfl, hlater⟩ := trace_ask.mp hfirst
        exact trace_ask.mpr ⟨answer, later ++ rest, rfl, (ih answer).mpr ⟨a, later, rest, rfl, hlater, hrest⟩⟩

end Call

/-- `fine` is `dev` on a state that holds more than `f` sees. -/
def Over (fine : Device A τ) (dev : Device A σ) (f : τ → σ) : Prop :=
  ∀ r s, dev r (f s) = ((fine r s).1, f (fine r s).2)

theorem Over.exec {fine : Device A τ} {dev : Device A σ} {f : τ → σ} (h : Over fine dev f) (c : Call R A α) (s : τ) :
    c.exec dev (f s) = ((c.exec fine s).1, f (c.exec fine s).2) := by
  induction c generalizing s with
  | done a => rfl
  | ask r next ih =>
      rw [Call.exec, h r s]
      exact ih _ _

/-- The device with its accesses written down. -/
def logged (dev : Device A σ) : Device A (σ × List (Access A)) :=
  fun r s => ((dev r s.1).1, (dev r s.1).2, s.2 ++ [⟨r, (dev r s.1).1⟩])

theorem logged_over (dev : Device A σ) : Over (logged dev) dev Prod.fst := fun _ _ => rfl

/-- What is written down is a trace of the call. -/
theorem exec_logged (dev : Device A σ) (c : Call R A α) (s : σ) (log : List (Access A)) :
    ∃ t, c.Trace t (c.exec dev s).1 ∧ c.exec (logged dev) (s, log) = ((c.exec dev s).1, (c.exec dev s).2, log ++ t) := by
  induction c generalizing s log with
  | done a => exact ⟨[], .done a, by rw [List.append_nil]; rfl⟩
  | ask r next ih =>
      obtain ⟨t, ht, hexec⟩ := ih (dev r s).1 (dev r s).2 (log ++ [⟨r, (dev r s).1⟩])
      refine ⟨⟨r, (dev r s).1⟩ :: t, .ask _ ht, ?_⟩
      rw [List.append_assoc, List.singleton_append] at hexec
      exact hexec

/-- The device gives the answers of a script, as long as the requests are those of the script. -/
def Replays (dev : Device A (List (Access A))) : Prop := ∀ r answer rest, dev r (⟨r, answer⟩ :: rest) = (answer, rest)

/-- Every trace of a call is what the call does with some device. -/
theorem Replays.exec {dev : Device A (List (Access A))} (h : Replays dev) {c : Call R A α} {t : List (Access A)} {a : α}
    (ht : c.Trace t a) (rest log : List (Access A)) : c.exec (logged dev) (t ++ rest, log) = (a, rest, log ++ t) := by
  induction ht generalizing log with
  | done a => rw [List.append_nil]; rfl
  | @ask r next answer t a _ ih =>
      have hanswer : logged dev r (⟨r, answer⟩ :: t ++ rest, log) = (answer, t ++ rest, log ++ [⟨r, answer⟩]) := by
        rw [logged, List.cons_append, h]
      rw [Call.exec, hanswer]
      exact (ih _).trans (by rw [List.append_assoc, List.singleton_append])

end FocFirmware.Calls

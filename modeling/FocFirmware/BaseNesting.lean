import FocFirmware.BaseCalls
import FocFirmware.BaseInterrupts

/-! Handlers and the main program one step at a time. The hardware acts between any two of their steps, an interrupt
breaks into a running handler when its level is lower, and into the main program in the middle of what was one step
of it. Where all levels are the same no handler is broken into, and where each event in a program either commutes with
the rest of it or does nothing, the runs are those of the controller for which each program is one step. -/

namespace FocFirmware.Nesting

open Calls Interrupts Runs

universe u v

/-- A step has an answer, and the program goes on with it. -/
inductive Program (S : Type u) : Type (max u 1) where
  | done
  | step {A : Type} (f : S → A × S) (next : A → Program S)

namespace Program

variable {S : Type u}

def act (f : S → S) (p : Program S) : Program S := .step (fun s => ((), f s)) fun _ => p

def test (c : S → Bool) (yes no : Program S) : Program S :=
  .step (fun s => (c s, s)) fun
    | true => yes
    | false => no

/-- The calls of a device that is part of the memory. -/
def call {R : Type} {A : R → Type} (dev : Device A S) {α : Type} : Call R A α → (α → Program S) → Program S
  | .done a, k => k a
  | .ask r next, k => .step (dev r) fun a => call dev (next a) k

/-- The program from start to end. -/
def exec : Program S → S → S
  | .done, s => s
  | .step f next, s => (next (f s).1).exec (f s).2

/-- The first step: what is left of the program, and the memory. -/
def advance : Program S → S → Program S × S
  | .done, s => (.done, s)
  | .step f next, s => (next (f s).1, (f s).2)

@[simp] theorem exec_done (s : S) : exec .done s = s := rfl

@[simp] theorem exec_act (f : S → S) (p : Program S) (s : S) : (act f p).exec s = p.exec (f s) := rfl

theorem exec_test (c : S → Bool) (yes no : Program S) (s : S) :
    (test c yes no).exec s = if c s then yes.exec s else no.exec s := by
  change (match c s with
    | true => yes
    | false => no).exec s = _
  cases c s <;> rfl

theorem exec_call {R : Type} {A : R → Type} (dev : Device A S) {α : Type} (c : Call R A α) (k : α → Program S) (s : S) :
    (call dev c k).exec s = (k (c.exec dev s).1).exec (c.exec dev s).2 := by
  induction c generalizing s with
  | done a => rfl
  | ask r next ih => exact ih _ _

theorem exec_advance (p : Program S) (s : S) : (p.advance s).1.exec (p.advance s).2 = p.exec s := by
  cases p <;> rfl

/-- Every step is in the relation. -/
inductive Keeps (rel : S → S → Prop) : Program S → Prop where
  | done : Keeps rel .done
  | step {A : Type} {f : S → A × S} {next : A → Program S} (h : ∀ s, rel s (f s).2) (hnext : ∀ a, Keeps rel (next a)) :
      Keeps rel (.step f next)

section Keeps

variable {rel : S → S → Prop} {p : Program S}

theorem Keeps.act {f : S → S} (h : ∀ s, rel s (f s)) (hp : Keeps rel p) : Keeps rel (Program.act f p) := .step h fun _ => hp

theorem Keeps.test {c : S → Bool} {yes no : Program S} (hrefl : ∀ s, rel s s) (hyes : Keeps rel yes) (hno : Keeps rel no) :
    Keeps rel (Program.test c yes no) :=
  .step hrefl fun
    | true => hyes
    | false => hno

theorem Keeps.call {R : Type} {A : R → Type} {dev : Device A S} (h : ∀ r s, rel s (dev r s).2) {α : Type} (c : Call R A α)
    {k : α → Program S} (hk : ∀ a, Keeps rel (k a)) : Keeps rel (Program.call dev c k) := by
  induction c with
  | done a => exact hk a
  | ask r next ih => exact .step (h r) ih

theorem Keeps.advance (hrefl : ∀ s, rel s s) (h : Keeps rel p) (s : S) :
    Keeps rel (p.advance s).1 ∧ rel s (p.advance s).2 := by
  cases h with
  | done => exact ⟨.done, hrefl s⟩
  | step h hnext => exact ⟨hnext _, h s⟩

theorem Keeps.exec {rel' : S → S → Prop} (hrefl : ∀ s, rel' s s) (htrans : ∀ s t u, rel s t → rel' t u → rel' s u)
    (h : Keeps rel p) (s : S) : rel' s (p.exec s) := by
  induction h generalizing s with
  | done => exact hrefl s
  | step h _ ih => exact htrans _ _ _ (h s) (ih _ _)

end Keeps

/-- Step by step the same, seen through `view`. -/
inductive Seen {T : Type v} (view : S → T) : Program S → Program T → Prop where
  | done : Seen view .done .done
  | step {A : Type} {f : S → A × S} {g : T → A × T} {next : A → Program S} {next' : A → Program T}
      (h : ∀ s, g (view s) = ((f s).1, view (f s).2)) (hnext : ∀ a, Seen view (next a) (next' a)) :
      Seen view (.step f next) (.step g next')

section Seen

variable {T : Type v} {view : S → T} {p : Program S} {q : Program T}

theorem Seen.act {f : S → S} {g : T → T} (h : ∀ s, g (view s) = view (f s)) (hp : Seen view p q) :
    Seen view (Program.act f p) (Program.act g q) := .step (fun s => Prod.ext rfl (h s)) fun _ => hp

theorem Seen.test {c : S → Bool} {d : T → Bool} {yes no : Program S} {yes' no' : Program T} (h : ∀ s, d (view s) = c s)
    (hyes : Seen view yes yes') (hno : Seen view no no') : Seen view (Program.test c yes no) (Program.test d yes' no') :=
  .step (fun s => Prod.ext (h s) rfl) fun
    | true => hyes
    | false => hno

theorem Seen.call {R : Type} {A : R → Type} {dev : Device A S} {dev' : Device A T} (h : Over dev dev' view) {α : Type}
    (c : Call R A α) {k : α → Program S} {k' : α → Program T} (hk : ∀ a, Seen view (k a) (k' a)) :
    Seen view (Program.call dev c k) (Program.call dev' c k') := by
  induction c with
  | done a => exact hk a
  | ask r next ih => exact .step (h r) ih

theorem Seen.advance (h : Seen view p q) (s : S) :
    Seen view (p.advance s).1 (q.advance (view s)).1 ∧ (q.advance (view s)).2 = view (p.advance s).2 := by
  cases h with
  | done => exact ⟨.done, rfl⟩
  | step h hnext =>
      simp only [Program.advance, h, and_true]
      exact hnext _

end Seen

end Program

/-- `order` is that of the interrupt numbers; of levels and of urgencies within a level the lower comes first. `main`
is the program of the next step of the main program. -/
structure Vectors (S : Type u) (I : Type*) where
  order : List I
  level : I → ℕ
  sub : I → ℕ
  pending : S → I → Bool
  program : I → Program S
  main : S → Program S

/-- What is left of the main program's step, and the handlers that have begun with what is left of each, the
innermost first. -/
structure Machine (S : Type u) (I : Type*) where
  mem : S
  thread : Program S
  active : List (I × Program S)

/-- Where the innermost handler and then the main program's step will leave the memory. -/
def Machine.completed {S : Type u} {I : Type*} (m : Machine S I) : S :=
  m.thread.exec <|
    match m.active with
    | [] => m.mem
    | (_, p) :: _ => p.exec m.mem

namespace Vectors

variable {S : Type u} {I H : Type*} (v : Vectors S I) (hardware : H → S → S)

def moreUrgent (i j : I) : Bool := decide (v.level i < v.level j) || v.level i == v.level j && decide (v.sub i < v.sub j)

/-- The first of the pending interrupts that no other one is more urgent than. -/
def next (s : S) : Option I :=
  v.order.find? fun i => v.pending s i && v.order.all fun j => !(v.pending s j && v.moreUrgent j i)

def mayEnter (i : I) : List (I × Program S) → Bool
  | [] => true
  | (j, _) :: _ => v.level i < v.level j

/-- What the main program goes on with. -/
def resumed (m : Machine S I) : Program S :=
  match m.thread with
  | .done => v.main m.mem
  | p => p

def cpuStep (m : Machine S I) : Machine S I :=
  match (v.next m.mem).filter fun i => v.mayEnter i m.active with
  | some i => { m with active := (i, v.program i) :: m.active }
  | none =>
      match m.active with
      | [] =>
          let (p, s) := (v.resumed m).advance m.mem
          ⟨s, p, []⟩
      | (_, .done) :: rest => { m with active := rest }
      | (i, p) :: rest =>
          let (q, s) := p.advance m.mem
          ⟨s, m.thread, (i, q) :: rest⟩

def step (m : Machine S I) : Event H → Machine S I
  | .cpu => v.cpuStep m
  | .hardware h => { m with mem := hardware h m.mem }

/-- Each program as one step. -/
def controller : Controller S I := ⟨v.order, v.pending, fun i => (v.program i).exec, fun s => (v.main s).exec s⟩

/-- No interrupt is more urgent than another. -/
structure Flat : Prop where
  level_eq : ∀ i j, v.level i = v.level j
  sub_eq : ∀ i j, v.sub i = v.sub j

variable {v hardware}

theorem Flat.moreUrgent (h : v.Flat) (i j : I) : v.moreUrgent i j = false := by
  simp [Vectors.moreUrgent, h.level_eq i j, h.sub_eq i j]

theorem Flat.next (h : v.Flat) (s : S) : v.next s = v.controller.next s := by
  have hall : v.order.all (fun j => !(v.pending s j && false)) = true := List.all_eq_true.mpr (by simp)
  simp only [Vectors.next, Controller.next, controller, h.moreUrgent, hall, Bool.and_true]

/-- A running handler is not broken into. -/
theorem Flat.cpuStep_active (h : v.Flat) (s : S) (p : Program S) (i : I) (q : Program S) :
    v.cpuStep ⟨s, p, [(i, q)]⟩ =
      match q with
      | .done => ⟨s, p, []⟩
      | .step f next => ⟨(f s).2, p, [(i, next (f s).1)]⟩ := by
  have hkept : (v.next s).filter (fun j => v.mayEnter j [(i, q)]) = none := by
    cases v.next s with
    | none => rfl
    | some j => simp [mayEnter, h.level_eq j i]
  unfold cpuStep
  rw [hkept]
  cases q <;> rfl

theorem cpuStep_enter {s : S} {p : Program S} {i : I} (h : v.next s = some i) :
    v.cpuStep ⟨s, p, []⟩ = ⟨s, p, [(i, v.program i)]⟩ := by
  simp [cpuStep, h, mayEnter, Option.filter]

theorem cpuStep_main {s : S} {p : Program S} (h : v.next s = none) :
    v.cpuStep ⟨s, p, []⟩ = ⟨((v.resumed ⟨s, p, []⟩).advance s).2, ((v.resumed ⟨s, p, []⟩).advance s).1, []⟩ := by
  simp [cpuStep, h]

end Vectors

/-- What can happen around a program: events that a state may allow, and what of the state decides which come. -/
structure Surroundings (S : Type u) (E T : Type*) where
  step : E → S → S
  can : S → E → Prop
  sees : S → T

section Outline

variable {S : Type u} {E T : Type*} (env : Surroundings S E T)

/-- No event invalidates `P`. -/
def Stable (P : S → Prop) : Prop := ∀ s e, P s → env.can s e → P (env.step e s)

/-- Where `P` holds, every event can be put off to the end of the program, or left out, and those that can come do
not depend on the rest of the program. -/
def Moves (P : S → Prop) (p : Program S) : Prop :=
  ∀ s, P s → env.sees (p.exec s) = env.sees s ∧
    ∀ e, env.can s e → p.exec (env.step e s) = env.step e (p.exec s) ∨ p.exec (env.step e s) = p.exec s

/-- A proof outline: an assertion before every step of a program, each one stable, with `good` throughout. -/
inductive Outline (good : S → Prop) : (S → Prop) → Program S → Prop where
  | done {P : S → Prop} (hgood : ∀ s, P s → good s) : Outline good P .done
  | step {P : S → Prop} {A : Type} {Q : A → S → Prop} {f : S → A × S} {next : A → Program S} (hgood : ∀ s, P s → good s)
      (hstable : Stable env P) (hmoves : Moves env P (.step f next)) (hact : ∀ s, P s → Q (f s).1 (f s).2)
      (hnext : ∀ a, Outline good (Q a) (next a)) : Outline good P (.step f next)

variable {env} {good P : S → Prop} {p : Program S}

theorem Outline.act {Q : S → Prop} {f : S → S} (hgood : ∀ s, P s → good s) (hstable : Stable env P)
    (hmoves : Moves env P (.act f p)) (hact : ∀ s, P s → Q (f s)) (hp : Outline env good Q p) : Outline env good P (.act f p) :=
  .step hgood hstable hmoves hact fun _ => hp

theorem Outline.test {Q R : S → Prop} {c : S → Bool} {yes no : Program S} (hgood : ∀ s, P s → good s) (hstable : Stable env P)
    (hmoves : Moves env P (.test c yes no)) (htrue : ∀ s, P s → c s = true → Q s) (hfalse : ∀ s, P s → c s = false → R s)
    (hyes : Outline env good Q yes) (hno : Outline env good R no) : Outline env good P (.test c yes no) := by
  refine .step (Q := fun b s => if b then Q s else R s) hgood hstable hmoves (fun s hs => ?_) ?_
  · cases hc : c s with
    | true => exact htrue s hs hc
    | false => exact hfalse s hs hc
  · rintro (_ | _)
    · exact hno
    · exact hyes

theorem Outline.good_of (h : Outline env good P p) {s : S} (hs : P s) : good s := by
  cases h with
  | done hgood => exact hgood s hs
  | step hgood => exact hgood s hs

theorem Outline.moves (h : Outline env good P p) : Moves env P p := by
  cases h with
  | done => exact fun _ _ => ⟨rfl, fun _ _ => .inl rfl⟩
  | step _ _ hmoves => exact hmoves

/-- An event leaves an assertion of the same program. -/
theorem Outline.event (hstable : Stable env good) (h : Outline env good P p) {s : S} {e : E} (hs : P s) (hcan : env.can s e) :
    ∃ Q : S → Prop, Q (env.step e s) ∧ Outline env good Q p := by
  cases h with
  | done hgood => exact ⟨_, hstable s e (hgood s hs) hcan, .done fun _ h => h⟩
  | step hgood hstable' hmoves hact hnext => exact ⟨P, hstable' s e hs hcan, .step hgood hstable' hmoves hact hnext⟩

theorem Outline.exec_good (h : Outline env good P p) {s : S} (hs : P s) : good (p.exec s) := by
  induction h generalizing s with
  | done hgood => exact hgood s hs
  | step _ _ _ hact _ ih => exact ih _ (hact s hs)

/-- A step that neither shows in the events nor they in it. -/
structure StepApart (env : Surroundings S E T) (P : S → Prop) {A : Type} (f : S → A × S) : Prop where
  keeps : ∀ s, P s → P (f s).2
  commutes : ∀ s e, P s → env.can s e → f (env.step e s) = ((f s).1, env.step e (f s).2)
  can : ∀ s e, P s → env.can s e → env.can (f s).2 e
  sees : ∀ s, P s → env.sees (f s).2 = env.sees s

/-- All steps of the program are such steps. -/
inductive Apart (env : Surroundings S E T) (P : S → Prop) : Program S → Prop where
  | done : Apart env P .done
  | step {A : Type} {f : S → A × S} {next : A → Program S} (h : StepApart env P f) (hnext : ∀ a, Apart env P (next a)) :
      Apart env P (.step f next)

theorem Apart.call {R : Type} {A : R → Type} {dev : Device A S} (h : ∀ r, StepApart env P (dev r)) {α : Type} (c : Call R A α)
    {k : α → Program S} (hk : ∀ a, Apart env P (k a)) : Apart env P (.call dev c k) := by
  induction c with
  | done a => exact hk a
  | ask r next ih => exact .step (h r) ih

theorem Apart.moves (h : Apart env P p) : Moves env P p := by
  induction h with
  | done => exact fun _ _ => ⟨rfl, fun _ _ => .inl rfl⟩
  | @step A f next h _ ih =>
      intro s hs
      obtain ⟨hsees, hevents⟩ := ih (f s).1 (f s).2 (h.keeps s hs)
      refine ⟨hsees.trans (h.sees s hs), fun e hcan => ?_⟩
      have hexec : (Program.step f next).exec (env.step e s) = (next (f s).1).exec (env.step e (f s).2) := by
        rw [Program.exec, h.commutes s e hs hcan]
      rw [hexec]
      exact hevents e (h.can s e hs hcan)

/-- Such a program has one assertion for an outline. -/
theorem Apart.outline (h : Apart env P p) (hgood : ∀ s, P s → good s) (hstable : Stable env P) : Outline env good P p := by
  induction h with
  | done => exact .done hgood
  | step h hnext ih => exact .step hgood hstable (Apart.step h hnext).moves (fun s hs => h.keeps s hs) ih

end Outline

section Reduction

variable {S : Type u} {I H : Type*} (v : Vectors S I) (hardware : H → S → S) (good : S → Prop)

/-- Around a handler only the hardware acts. -/
def aroundHandler : Surroundings S H Unit := ⟨hardware, fun _ _ => True, fun _ => ()⟩

/-- Around the main program the handlers run too, each from start to end. -/
def aroundMain : Surroundings S (H ⊕ I) (Option I) where
  step := Sum.elim hardware fun i => (v.program i).exec
  can s e := ∀ i, e = .inr i → v.pending s i = true
  sees := v.next

/-- What makes each program as good as one step: an outline for every handler from the moment it is entered, and for
what is left of a step of the main program after the first access of it. -/
structure Reducible : Prop where
  flat : v.Flat
  stable : Stable (aroundHandler hardware) good
  program : ∀ i, Outline (aroundHandler hardware) good (fun s => good s ∧ v.pending s i = true) (v.program i)
  main : ∀ s, good s → v.next s = none →
    (((v.main s).advance s).1 = .done ∨ v.next ((v.main s).advance s).2 = none) ∧
      ∃ P : S → Prop, P ((v.main s).advance s).2 ∧ Outline (aroundMain v hardware) good P ((v.main s).advance s).1

/-- The main program runs, or one handler does, and their outlines hold. -/
inductive Steady : Machine S I → Prop where
  | idle {s : S} {p : Program S} {P : S → Prop} (hp : Outline (aroundMain v hardware) good P p) (h : P s) : Steady ⟨s, p, []⟩
  | serving {s : S} {p : Program S} {P : S → Prop} (hp : Outline (aroundMain v hardware) good P p) {i : I} {q : Program S}
      {Q : S → Prop} (hq : Outline (aroundHandler hardware) good Q q) (h : Q s) (hafter : P (q.exec s)) :
      Steady ⟨s, p, [(i, q)]⟩

variable {v hardware good}

theorem Steady.length_le {m : Machine S I} (h : Steady v hardware good m) : m.active.length ≤ 1 := by
  cases h with
  | idle => exact Nat.zero_le _
  | serving => exact le_rfl

/-- Handlers keep what holds throughout. -/
theorem Reducible.stable_main (hr : Reducible v hardware good) : Stable (aroundMain v hardware) good := by
  rintro s (e | i) hs hcan
  · exact hr.stable s e hs trivial
  · exact (hr.program i).exec_good ⟨hs, hcan i rfl⟩

/-- What one event does: nothing that shows at the end of the programs, or one event of the controller. -/
def Accounts (v : Vectors S I) (hardware : H → S → S) (good : S → Prop) (m m' : Machine S I) (e : Event H) : Prop :=
  Steady v hardware good m' ∧
    (m'.completed = m.completed ∨ m'.completed = v.controller.step hardware m.completed e)

section Step

variable {s : S} {p : Program S} {P : S → Prop}

theorem Reducible.hardware_idle (hr : Reducible v hardware good) (hp : Outline (aroundMain v hardware) good P p) (h : P s)
    (e : H) :
    Accounts v hardware good ⟨s, p, []⟩ ⟨hardware e s, p, []⟩ (.hardware e) := by
  have hcan : (aroundMain v hardware).can s (.inl e) := fun i hi => by cases hi
  obtain ⟨P', hP', hp'⟩ := hp.event hr.stable_main h hcan
  refine ⟨.idle hp' hP', ?_⟩
  rcases (hp.moves s h).2 (.inl e) hcan with hmove | hnothing
  · exact .inr hmove
  · exact .inl hnothing

theorem Reducible.hardware_serving (hr : Reducible v hardware good) (hp : Outline (aroundMain v hardware) good P p) {i : I}
    {q : Program S} {Q : S → Prop} (hq : Outline (aroundHandler hardware) good Q q) (h : Q s) (hafter : P (q.exec s)) (e : H) :
    Accounts v hardware good ⟨s, p, [(i, q)]⟩ ⟨hardware e s, p, [(i, q)]⟩ (.hardware e) := by
  obtain ⟨Q', hQ', hq'⟩ := hq.event (e := e) hr.stable h trivial
  have hcan : (aroundMain v hardware).can (q.exec s) (.inl e) := fun i hi => by cases hi
  rcases (hq.moves s h).2 e trivial with hmove | hnothing
  · have hmove' : q.exec (hardware e s) = hardware e (q.exec s) := hmove
    obtain ⟨P', hP', hp'⟩ := hp.event hr.stable_main hafter hcan
    refine ⟨.serving hp' hq' hQ' (hmove' ▸ hP'), ?_⟩
    change p.exec (q.exec (hardware e s)) = p.exec (q.exec s) ∨ p.exec (q.exec (hardware e s)) = hardware e (p.exec (q.exec s))
    rw [hmove']
    rcases (hp.moves (q.exec s) hafter).2 (.inl e) hcan with hmain | hmain
    · exact .inr hmain
    · exact .inl hmain
  · have hnothing' : q.exec (hardware e s) = q.exec s := hnothing
    exact ⟨.serving hp hq' hQ' (hnothing' ▸ hafter), .inl (congrArg p.exec hnothing')⟩

/-- A handler that is entered can as well be served after the main program's step. -/
theorem Reducible.enter (hr : Reducible v hardware good) (hp : Outline (aroundMain v hardware) good P p) (h : P s) {i : I}
    (hnext : v.next s = some i) : Accounts v hardware good ⟨s, p, []⟩ ⟨s, p, [(i, v.program i)]⟩ .cpu := by
  have hpending : v.pending s i = true := Controller.pending_of_next (hr.flat.next s ▸ hnext)
  have hcan : (aroundMain v hardware).can s (.inr i) := by
    rintro j ⟨⟩
    exact hpending
  obtain ⟨P', hP', hp'⟩ := hp.event hr.stable_main h hcan
  refine ⟨.serving hp' (hr.program i) ⟨hp.good_of h, hpending⟩ hP', ?_⟩
  obtain ⟨hsees, hevents⟩ := hp.moves s h
  have hlater : v.controller.next (p.exec s) = some i := by
    rw [← hr.flat.next]
    exact hsees.trans hnext
  rcases hevents (.inr i) hcan with hmove | hnothing
  · refine .inr (hmove.trans ?_)
    exact (Controller.cpuStep_of_next hlater).symm
  · exact .inl hnothing

theorem Reducible.main_step (hr : Reducible v hardware good) (hp : Outline (aroundMain v hardware) good P p) (h : P s)
    (hnext : v.next s = none) :
    Accounts v hardware good ⟨s, p, []⟩
      ⟨((v.resumed ⟨s, p, []⟩).advance s).2, ((v.resumed ⟨s, p, []⟩).advance s).1, []⟩ .cpu := by
  cases hp with
  | done hgood =>
      obtain ⟨-, Q, hQ, hq⟩ := hr.main s (hgood s h) hnext
      refine ⟨.idle hq hQ, .inr ((Program.exec_advance _ _).trans ?_)⟩
      have hnone : v.controller.next s = none := hr.flat.next s ▸ hnext
      exact (Controller.cpuStep_of_none hnone).symm
  | step _ _ _ hact hrest => exact ⟨.idle (hrest _) (hact s h), .inl rfl⟩

theorem Reducible.step (hr : Reducible v hardware good) {m : Machine S I} (h : Steady v hardware good m) (e : Event H) :
    Accounts v hardware good m (v.step hardware m e) e := by
  cases h with
  | @idle s p P hp h =>
      cases e with
      | hardware e => exact hr.hardware_idle hp h e
      | cpu =>
          cases hnext : v.next s with
          | none =>
              rw [Vectors.step, Vectors.cpuStep_main hnext]
              exact hr.main_step hp h hnext
          | some i =>
              rw [Vectors.step, Vectors.cpuStep_enter hnext]
              exact hr.enter hp h hnext
  | @serving s p P hp i q Q hq h hafter =>
      cases e with
      | hardware e => exact hr.hardware_serving hp hq h hafter e
      | cpu =>
          rw [Vectors.step, hr.flat.cpuStep_active]
          cases hq with
          | done => exact ⟨.idle hp hafter, .inl rfl⟩
          | step _ _ _ hact hrest => exact ⟨.serving hp (hrest _) (hact s h) hafter, .inl rfl⟩

end Step

/-- **Reduction.** Every run, with the programs that are running brought to their end, is a run of the controller on
some of its events. -/
theorem Reducible.run_completed (hr : Reducible v hardware good) {s : S} (h : good s) (events : List (Event H)) :
    Steady v hardware good (run (v.step hardware) ⟨s, .done, []⟩ events) ∧ ∃ kept, kept.Sublist events ∧
      (run (v.step hardware) ⟨s, .done, []⟩ events).completed = run (v.controller.step hardware) s kept := by
  induction events using List.reverseRecOn with
  | nil => exact ⟨.idle (.done fun _ h => h) h, [], List.Sublist.slnil, rfl⟩
  | append_singleton events e ih =>
      obtain ⟨hsteady, kept, hkept, hrun⟩ := ih
      obtain ⟨hnext, hstep⟩ := hr.step hsteady e
      rw [run_concat]
      refine ⟨hnext, ?_⟩
      rcases hstep with hsame | hone
      · exact ⟨kept, hkept.trans (List.sublist_append_left _ _), hsame.trans hrun⟩
      · refine ⟨kept ++ [e], hkept.append (List.Sublist.refl _), ?_⟩
        rw [hone, hrun, run_concat]

/-- A handler left to itself comes to its end. -/
theorem run_handler (hflat : v.Flat) (s : S) (p : Program S) (i : I) (q : Program S) :
    ∃ n, run (v.step hardware) ⟨s, p, [(i, q)]⟩ (List.replicate n .cpu) = ⟨q.exec s, p, []⟩ := by
  induction q generalizing s with
  | done => exact ⟨1, hflat.cpuStep_active s p i .done⟩
  | step f next ih =>
      obtain ⟨n, hn⟩ := ih (f s).1 (f s).2
      refine ⟨n + 1, ?_⟩
      rw [List.replicate_succ, run_cons, Vectors.step, hflat.cpuStep_active]
      exact hn

/-- So does a step of the main program that is not broken into. -/
theorem run_thread {P : S → Prop} {p : Program S} (hp : Outline (aroundMain v hardware) good P p) {s : S} (h : P s)
    (hnext : p = .done ∨ v.next s = none) :
    ∃ n, run (v.step hardware) ⟨s, p, []⟩ (List.replicate n .cpu) = ⟨p.exec s, .done, []⟩ := by
  induction hp generalizing s with
  | done => exact ⟨0, rfl⟩
  | @step P A Q f next _ _ hmoves hact hrest ih =>
      have hnone := hnext.resolve_left fun hdone => by cases hdone
      have hlater : v.next (f s).2 = none := by
        have hrest' := ((hrest (f s).1).moves _ (hact s h)).1
        have hwhole := (hmoves s h).1
        exact hrest'.symm.trans (hwhole.trans hnone)
      obtain ⟨n, hn⟩ := ih (f s).1 (hact s h) (.inr hlater)
      refine ⟨n + 1, ?_⟩
      rw [List.replicate_succ, run_cons, Vectors.step, Vectors.cpuStep_main hnone]
      exact hn

/-- One event of the controller, with the program that it begins brought to its end. -/
theorem Reducible.step_expanded (hr : Reducible v hardware good) {t : S} (h : good t) (e : Event H) :
    good (v.controller.step hardware t e) ∧ ∃ n,
      run (v.step hardware) ⟨t, .done, []⟩ (e :: List.replicate n .cpu) = ⟨v.controller.step hardware t e, .done, []⟩ := by
  cases e with
  | hardware e => exact ⟨hr.stable t e h trivial, 0, rfl⟩
  | cpu =>
      cases hnext : v.next t with
      | none =>
          obtain ⟨hquiet, P, hP, hp⟩ := hr.main t h hnext
          have hmain : v.controller.step hardware t .cpu = (v.main t).exec t :=
            Controller.cpuStep_of_none (hr.flat.next t ▸ hnext)
          obtain ⟨n, hn⟩ := run_thread hp hP hquiet
          rw [hmain, ← Program.exec_advance]
          refine ⟨hp.exec_good hP, n, ?_⟩
          rw [run_cons, Vectors.step, Vectors.cpuStep_main hnext]
          exact hn
      | some i =>
          have hcontrol : v.controller.next t = some i := hr.flat.next t ▸ hnext
          have hserve : v.controller.step hardware t .cpu = (v.program i).exec t := Controller.cpuStep_of_next hcontrol
          obtain ⟨n, hn⟩ := @run_handler S I H v hardware hr.flat t .done i (v.program i)
          rw [hserve]
          refine ⟨(hr.program i).exec_good ⟨h, Controller.pending_of_next hcontrol⟩, n, ?_⟩
          rw [run_cons, Vectors.step, Vectors.cpuStep_enter hnext]
          exact hn

/-- Every run of the controller is a run, with each program brought to its end where it begins. -/
theorem Reducible.run_expanded (hr : Reducible v hardware good) {s : S} (h : good s) (events : List (Event H)) :
    ∃ longer, events.Sublist longer ∧
      run (v.step hardware) ⟨s, .done, []⟩ longer = ⟨run (v.controller.step hardware) s events, .done, []⟩ := by
  suffices hgood : good (run (v.controller.step hardware) s events) ∧ ∃ longer, events.Sublist longer ∧
      run (v.step hardware) ⟨s, .done, []⟩ longer = ⟨run (v.controller.step hardware) s events, .done, []⟩ from hgood.2
  induction events using List.reverseRecOn with
  | nil => exact ⟨h, [], List.Sublist.slnil, rfl⟩
  | append_singleton events e ih =>
      obtain ⟨hgood, longer, hlonger, hrun⟩ := ih
      obtain ⟨hnext, n, hn⟩ := hr.step_expanded hgood e
      rw [run_concat]
      refine ⟨hnext, longer ++ (e :: List.replicate n .cpu), ?_, ?_⟩
      · exact hlonger.append (List.singleton_sublist.mpr (List.mem_cons_self ..))
      · rw [run_append, hrun, hn]

end Reduction

section Steps

variable {S : Type u} {I H : Type*} {v : Vectors S I} {hardware : H → S → S} {rel : S → S → Prop} {m : Machine S I}

/-- What is left of the programs that have begun keeps to the relation. -/
structure Machine.Keeps (rel : S → S → Prop) (m : Machine S I) : Prop where
  thread : m.thread.Keeps rel
  active : ∀ x ∈ m.active, x.2.Keeps rel

/-- The first step of what is left of a program. -/
theorem Machine.Keeps.resumed (h : m.Keeps rel) (hrefl : ∀ s, rel s s)
    (hmain : ∀ s, ((v.main s).advance s).1.Keeps rel ∧ rel s ((v.main s).advance s).2) :
    ((v.resumed m).advance m.mem).1.Keeps rel ∧ rel m.mem ((v.resumed m).advance m.mem).2 := by
  have hthread := h.thread
  unfold Vectors.resumed
  cases hp : m.thread with
  | done => exact hmain m.mem
  | step f next =>
      rw [hp] at hthread
      exact hthread.advance hrefl m.mem

/-- **One step at a time.** When every step of every program is in the relation, so is every event. -/
theorem Machine.Keeps.event (h : m.Keeps rel) (hrefl : ∀ s, rel s s)
    (hmain : ∀ s, ((v.main s).advance s).1.Keeps rel ∧ rel s ((v.main s).advance s).2)
    (hprogram : ∀ i, (v.program i).Keeps rel) (hhardware : ∀ e s, rel s (hardware e s)) (e : Event H) :
    (v.step hardware m e).Keeps rel ∧ rel m.mem (v.step hardware m e).mem := by
  cases e with
  | hardware e => exact ⟨⟨h.thread, h.active⟩, hhardware e m.mem⟩
  | cpu =>
      rw [Vectors.step, Vectors.cpuStep]
      split
      · refine ⟨⟨h.thread, ?_⟩, hrefl _⟩
        exact List.forall_mem_cons.mpr ⟨hprogram _, h.active⟩
      · split
        · obtain ⟨hrest, hstep⟩ := h.resumed hrefl hmain
          exact ⟨⟨hrest, by simp⟩, hstep⟩
        · next hactive =>
            refine ⟨⟨h.thread, fun x hx => h.active x ?_⟩, hrefl _⟩
            rw [hactive]
            exact List.mem_cons_of_mem _ hx
        · next i p rest hne hactive =>
            have hkept := h.active
            rw [hactive] at hkept
            obtain ⟨hp, hrest⟩ := List.forall_mem_cons.mp hkept
            obtain ⟨hleft, hstep⟩ := hp.advance hrefl m.mem
            exact ⟨⟨h.thread, List.forall_mem_cons.mpr ⟨hleft, hrest⟩⟩, hstep⟩

/-- What a run will have done once the programs that are running are through. -/
theorem Machine.Keeps.completed {R : S → S → Prop} (h : m.Keeps rel) (hrefl : ∀ s, R s s)
    (htrans : ∀ s t u, rel s t → R t u → R s u) (hjoin : ∀ s t u, R s t → R t u → R s u) :
    R m.mem m.completed := by
  have hactive := h.active
  unfold Machine.completed
  cases hm : m.active with
  | nil => exact h.thread.exec hrefl htrans m.mem
  | cons x rest =>
      rw [hm] at hactive
      obtain ⟨hx, -⟩ := List.forall_mem_cons.mp hactive
      exact hjoin _ _ _ (hx.exec hrefl htrans m.mem) (h.thread.exec hrefl htrans _)

end Steps

section View

variable {S : Type u} {T : Type v} {I H : Type*} (view : S → T)

/-- Two machines that are the same step by step, seen through `view`. -/
structure Vectors.Seen (v : Vectors S I) (w : Vectors T I) : Prop where
  order : w.order = v.order
  level : w.level = v.level
  sub : w.sub = v.sub
  pending : ∀ s, w.pending (view s) = v.pending s
  program : ∀ i, (v.program i).Seen view (w.program i)
  main : ∀ s, (v.main s).Seen view (w.main (view s))

structure Machine.Seen (m : Machine S I) (n : Machine T I) : Prop where
  mem : n.mem = view m.mem
  thread : m.thread.Seen view n.thread
  active : List.Forall₂ (fun x y => y.1 = x.1 ∧ x.2.Seen view y.2) m.active n.active

variable {view} {v : Vectors S I} {w : Vectors T I} {hardware : H → S → S} {hardware' : H → T → T} {m : Machine S I}
  {n : Machine T I}

theorem Vectors.Seen.next (h : Vectors.Seen view v w) (s : S) : w.next (view s) = v.next s := by
  simp only [Vectors.next, Vectors.moreUrgent, h.order, h.level, h.sub, h.pending]

theorem Vectors.Seen.mayEnter (h : Vectors.Seen view v w) (hm : Machine.Seen view m n) (i : I) :
    w.mayEnter i n.active = v.mayEnter i m.active := by
  have hactive := hm.active
  generalize m.active = xs at hactive ⊢
  generalize n.active = ys at hactive ⊢
  cases hactive with
  | nil => rfl
  | cons hxy => simp only [Vectors.mayEnter, h.level, hxy.1]

theorem Vectors.Seen.resumed (h : Vectors.Seen view v w) (hm : Machine.Seen view m n) :
    (v.resumed m).Seen view (w.resumed n) := by
  have hthread := hm.thread
  unfold Vectors.resumed
  rw [hm.mem]
  generalize m.thread = p at hthread ⊢
  generalize n.thread = q at hthread ⊢
  cases hthread with
  | done => exact h.main m.mem
  | step hf hnext => exact .step hf hnext

theorem Vectors.Seen.cpuStep (h : Vectors.Seen view v w) (hm : Machine.Seen view m n) :
    Machine.Seen view (v.cpuStep m) (w.cpuStep n) := by
  have hchoice : ((w.next n.mem).filter fun i => w.mayEnter i n.active) =
      (v.next m.mem).filter fun i => v.mayEnter i m.active := by
    rw [hm.mem, h.next]
    simp only [h.mayEnter hm]
  have hresumed := (h.resumed hm).advance m.mem
  have hactive := hm.active
  unfold Vectors.cpuStep
  rw [hchoice, hm.mem]
  cases (v.next m.mem).filter fun i => v.mayEnter i m.active with
  | some i => exact ⟨rfl, hm.thread, .cons ⟨rfl, h.program i⟩ hm.active⟩
  | none =>
      dsimp only
      generalize m.active = xs at hactive ⊢
      generalize n.active = ys at hactive ⊢
      cases hactive with
      | nil => exact ⟨hresumed.2, hresumed.1, .nil⟩
      | @cons x y _ _ hxy hrest =>
          obtain ⟨i, p⟩ := x
          obtain ⟨j, q⟩ := y
          obtain ⟨hij, hpq⟩ := hxy
          have hadvance := hpq.advance m.mem
          cases hpq with
          | done => exact ⟨rfl, hm.thread, hrest⟩
          | step hf hnext => exact ⟨hadvance.2, hm.thread, .cons ⟨hij, hadvance.1⟩ hrest⟩

/-- **Erasure.** Seen through `view`, every run of the one is the run of the other under the same events. -/
theorem Vectors.Seen.run (h : Vectors.Seen view v w) (hhardware : ∀ e s, hardware' e (view s) = view (hardware e s))
    (s : S) (events : List (Event H)) :
    Machine.Seen view (Runs.run (v.step hardware) ⟨s, .done, []⟩ events)
      (Runs.run (w.step hardware') ⟨view s, .done, []⟩ events) := by
  refine run_related (Machine.Seen view) (fun m n e hm => ?_) ⟨rfl, .done, .nil⟩ events
  cases e with
  | cpu => exact h.cpuStep hm
  | hardware e =>
      refine ⟨?_, hm.thread, hm.active⟩
      rw [Vectors.step, Vectors.step, hm.mem]
      exact hhardware e m.mem

end View

end FocFirmware.Nesting

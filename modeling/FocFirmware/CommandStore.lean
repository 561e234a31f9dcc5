import FocFirmware.BaseStore
import FocFirmware.CommandGrammar

/-! The two parameter sets as a store of 22 cells. A command writes one of them and a refused input none, so
after any sequence of inputs each holds what the last command for it said. -/

namespace FocFirmware

open CStrings Runs Stores

/-- The input is taken as this command: its name part is the name, an underscore, the group's digit and
perhaps more bytes without an underscore, in under 20 bytes. -/
def Addresses (input : CString) (cmd : Command) : Prop := ∃ junk,
  SplitsAtColon input.bytes (cmd.name.text ++ underscore :: cmd.group.digit :: junk) cmd.value ∧
    underscore ∉ junk ∧ (cmd.name.text ++ underscore :: cmd.group.digit :: junk).length < 20

section

variable {F : Type} (lib : CLibrary F)

/-- One call on the pair of parameter sets. -/
def paramStep (p : PidParams F × PidParams F) (input : CString) : PidParams F × PidParams F :=
  parseAndSetPid lib input p.1 p.2

/-- The cell an input writes, and the value. -/
def paramWrite (input : CString) : Option ((ParamGroup × ParamName) × ParamValue F) :=
  match parseCommand input.bytes with
  | .ok cmd => some ((cmd.group, cmd.name), cmd.name.convert lib cmd.value)
  | .error _ => none

theorem paramWrite_eq_some_iff {input : CString} {g : ParamGroup} {n : ParamName} {v : ParamValue F} :
    paramWrite lib input = some ((g, n), v) ↔ ∃ value, Addresses input ⟨g, n, value⟩ ∧ n.convert lib value = v := by
  unfold paramWrite
  constructor
  · intro h
    cases hparse : parseCommand input.bytes with
    | error e => simp [hparse] at h
    | ok cmd =>
        simp only [hparse, Option.some.injEq, Prod.mk.injEq] at h
        obtain ⟨⟨rfl, rfl⟩, hv⟩ := h
        exact ⟨cmd.value, parseCommand_eq_ok_iff.mp hparse, hv⟩
  · rintro ⟨value, haddresses, rfl⟩
    rw [parseCommand_eq_ok_iff.mpr haddresses]

theorem paramWrite_eq_none {input : CString} (h : ∀ cmd, ¬Addresses input cmd) : paramWrite lib input = none := by
  unfold paramWrite
  cases hparse : parseCommand input.bytes with
  | error e => rfl
  | ok cmd => exact absurd (parseCommand_eq_ok_iff.mp hparse) (h cmd)

/-- The eleven fields are all there is to a parameter set. -/
theorem paramName_read_ext {p q : PidParams F} (h : ∀ n : ParamName, n.read p = n.read q) : p = q := by
  obtain ⟨p1, p2, p3, p4, p5, p6, p7, p8, p9, p10, p11⟩ := p
  obtain ⟨q1, q2, q3, q4, q5, q6, q7, q8, q9, q10, q11⟩ := q
  obtain rfl : p1 = q1 := Sum.inl.inj (h .currentKP)
  obtain rfl : p2 = q2 := Sum.inl.inj (h .currentKI)
  obtain rfl : p3 = q3 := Sum.inl.inj (h .currentKD)
  obtain rfl : p4 = q4 := Sum.inl.inj (h .iq)
  obtain rfl : p5 = q5 := Sum.inl.inj (h .id)
  obtain rfl : p6 = q6 := Sum.inr.inj (h .currentSet)
  obtain rfl : p7 = q7 := Sum.inl.inj (h .speedKP)
  obtain rfl : p8 = q8 := Sum.inl.inj (h .speedKI)
  obtain rfl : p9 = q9 := Sum.inl.inj (h .speedKD)
  obtain rfl : p10 = q10 := Sum.inl.inj (h .speed)
  obtain rfl : p11 = q11 := Sum.inr.inj (h .speedSet)
  rfl

/-- **The parser is a store.** -/
theorem paramStore : IsStore (paramStep lib) (fun p c => readParam p c.1 c.2) (paramWrite lib) where
  silent p input hwrite := by
    unfold paramWrite at hwrite
    cases hparse : parseCommand input.bytes with
    | error e => exact parseAndSetPid_of_error hparse
    | ok cmd => simp [hparse] at hwrite
  written p input c v hwrite c' := by
    obtain ⟨value, haddresses, rfl⟩ := (paramWrite_eq_some_iff lib).mp hwrite
    apply (readParam_of_ok (parseCommand_eq_ok_iff.mpr haddresses) c'.1 c'.2).trans
    simp only [Prod.ext_iff]
  determined p q h := by
    apply Prod.ext
    · exact paramName_read_ext fun n => h (.one, n)
    · exact paramName_read_ext fun n => h (.two, n)

theorem untouched_iff {g : ParamGroup} {n : ParamName} {inputs : List CString} :
    Untouched (paramWrite lib) (g, n) inputs ↔ ∀ input ∈ inputs, ∀ value, ¬Addresses input ⟨g, n, value⟩ := by
  apply forall₂_congr
  intro input _
  constructor
  · intro h value haddresses
    exact h _ ((paramWrite_eq_some_iff lib).mpr ⟨value, haddresses, rfl⟩)
  · intro h v hwrite
    obtain ⟨value, haddresses, -⟩ := (paramWrite_eq_some_iff lib).mp hwrite
    exact h value haddresses

end

/-- **The parameter store.** After any sequence of inputs each field holds the value of the last command for
it, or what it held before; a call changes one field at most, refused inputs can be left out, and commands
for different fields commute. -/
theorem params_last_write_wins {F : Type} (lib : CLibrary F) (p : PidParams F × PidParams F) (inputs : List CString) :
    let final := run (paramStep lib) p inputs
    (∀ g n,
      (readParam final g n = readParam p g n ∧ ∀ input ∈ inputs, ∀ value, ¬Addresses input ⟨g, n, value⟩) ∨
        ∃ first input last value, inputs = first ++ input :: last ∧ Addresses input ⟨g, n, value⟩ ∧
          (∀ later ∈ last, ∀ value', ¬Addresses later ⟨g, n, value'⟩) ∧ readParam final g n = n.convert lib value) ∧
      (∀ input, ∃ g n, ∀ g' n', (g', n') ≠ (g, n) → readParam (paramStep lib p input) g' n' = readParam p g' n') ∧
      (∀ first input last, (∀ cmd, ¬Addresses input cmd) →
        run (paramStep lib) p (first ++ input :: last) = run (paramStep lib) p (first ++ last)) ∧
      ∀ input input' cmd cmd', Addresses input cmd → Addresses input' cmd' →
        (cmd.group, cmd.name) ≠ (cmd'.group, cmd'.name) →
          paramStep lib (paramStep lib p input) input' = paramStep lib (paramStep lib p input') input := by
  intro final
  have hstore := paramStore lib
  refine ⟨fun g n => ?_, fun input => ?_, fun first input last hrefused => ?_, ?_⟩
  · rcases hstore.read_run (g, n) p inputs with ⟨hkept, hnone⟩ | ⟨first, input, last, v, hsplit, hwrite, hlast, hread⟩
    · exact .inl ⟨hkept, (untouched_iff lib).mp hnone⟩
    · obtain ⟨value, haddresses, rfl⟩ := (paramWrite_eq_some_iff lib).mp hwrite
      exact .inr ⟨first, input, last, value, hsplit, haddresses, (untouched_iff lib).mp hlast, hread⟩
  · cases hwrite : paramWrite lib input with
    | none =>
        refine ⟨.one, .speed, fun g' n' _ => ?_⟩
        rw [hstore.silent p input hwrite]
    | some cell =>
        obtain ⟨⟨g, n⟩, v⟩ := cell
        refine ⟨g, n, fun g' n' hne => ?_⟩
        exact (hstore.written p input (g, n) v hwrite (g', n')).trans (if_neg hne)
  · exact hstore.run_delete (paramWrite_eq_none lib hrefused) p first last
  · intro input input' cmd cmd' haddresses haddresses' hne
    have hwrite := (paramWrite_eq_some_iff lib).mpr ⟨cmd.value, haddresses, rfl⟩
    have hwrite' := (paramWrite_eq_some_iff lib).mpr ⟨cmd'.value, haddresses', rfl⟩
    exact hstore.step_comm hwrite hwrite' hne p

end FocFirmware

import FocFirmware.BaseCString
import Mathlib.Data.Int.Notation
import Mathlib.Data.List.GetD

/-! The PID console of `usart_1.c`: `parse_and_set_pid` on the two parameter sets. The conversions of the
C library are parameters, and so is the type of floats; what the console prints is left out. -/

namespace FocFirmware

open CStrings

/-- `strtof` and `strtol` to base 10, on the text they are given. -/
structure CLibrary (F : Type) where
  strtof : List UInt8 → F
  strtol : List UInt8 → ℤ

structure PidParams (F : Type) where
  currentKP : F
  currentKI : F
  currentKD : F
  iq : F
  id : F
  currentSetFlag : UInt8
  speedKP : F
  speedKI : F
  speedKD : F
  speed : F
  speedSetFlag : UInt8

/-- The names the console compares with. -/
inductive ParamName where
  | currentSet
  | currentKP
  | currentKI
  | currentKD
  | iq
  | id
  | speedSet
  | speedKP
  | speedKI
  | speedKD
  | speed
  deriving DecidableEq

/-- `pid_params_1` or `pid_params_2`. -/
inductive ParamGroup where
  | one
  | two
  deriving DecidableEq

/-- Which parameter a command sets, and the text of its value. -/
structure Command where
  group : ParamGroup
  name : ParamName
  value : List UInt8

/-- Why an input is refused; the last two print the name as it then is. -/
inductive ParseError where
  | noColon
  | nameTooLong
  | unknownGroup (name : List UInt8)
  | unknownName (name : List UInt8)

namespace ParamName

def text : ParamName → List UInt8
  | .currentSet => ascii "Current_SET"
  | .currentKP => ascii "Current_KP"
  | .currentKI => ascii "Current_KI"
  | .currentKD => ascii "Current_KD"
  | .iq => ascii "Iq"
  | .id => ascii "Id"
  | .speedSet => ascii "Speed_SET"
  | .speedKP => ascii "Speed_KP"
  | .speedKI => ascii "Speed_KI"
  | .speedKD => ascii "Speed_KD"
  | .speed => ascii "Speed"

/-- The order of the comparisons. -/
def all : List ParamName :=
  [.currentSet, .currentKP, .currentKI, .currentKD, .iq, .id, .speedSet, .speedKP, .speedKI, .speedKD, .speed]

/-- The comparisons with `strcmp`, the first match taken. -/
def ofText (name : List UInt8) : Option ParamName := all.find? fun n => decide (name = n.text)

/-- The assignment of the branch of a name. -/
def store {F : Type} (lib : CLibrary F) (value : List UInt8) (p : PidParams F) : ParamName → PidParams F
  | .currentSet => { p with currentSetFlag := UInt8.ofInt (lib.strtol value) }
  | .currentKP => { p with currentKP := lib.strtof value }
  | .currentKI => { p with currentKI := lib.strtof value }
  | .currentKD => { p with currentKD := lib.strtof value }
  | .iq => { p with iq := lib.strtof value }
  | .id => { p with id := lib.strtof value }
  | .speedSet => { p with speedSetFlag := UInt8.ofInt (lib.strtol value) }
  | .speedKP => { p with speedKP := lib.strtof value }
  | .speedKI => { p with speedKI := lib.strtof value }
  | .speedKD => { p with speedKD := lib.strtof value }
  | .speed => { p with speed := lib.strtof value }

end ParamName

def colon : UInt8 := 58
def underscore : UInt8 := 95
def digitZero : UInt8 := 48
def digitOne : UInt8 := 49
def digitTwo : UInt8 := 50

/-- The group and the parameter of a name. Only the byte after the last underscore is looked at, the
terminator where there is none. -/
def parseName (name : List UInt8) : Except ParseError (ParamGroup × ParamName) :=
  match strrchr name underscore with
  | none => .error (.unknownGroup name)
  | some suffix =>
      let mark := name.getD (suffix + 1) 0
      if mark = digitOne ∨ mark = digitTwo then
        match ParamName.ofText (name.take suffix) with
        | none => .error (.unknownName (name.take suffix))
        | some n => .ok (if mark - digitZero = 1 then .one else .two, n)
      else .error (.unknownGroup name)

/-- What `parse_and_set_pid` makes of its input: the first colon, the length check, then the name. -/
def parseCommand (input : List UInt8) : Except ParseError Command :=
  match strchr input colon with
  | none => .error .noColon
  | some nameLen =>
      if nameLen ≥ 20 then .error .nameTooLong
      else
        match parseName (input.take nameLen) with
        | .error e => .error e
        | .ok (g, n) => .ok ⟨g, n, input.drop (nameLen + 1)⟩

def parseAndSetPid {F : Type} (lib : CLibrary F) (input : CString) (p1 p2 : PidParams F) :
    PidParams F × PidParams F :=
  match parseCommand input.bytes with
  | .error _ => (p1, p2)
  | .ok ⟨.one, n, value⟩ => (n.store lib value p1, p2)
  | .ok ⟨.two, n, value⟩ => (p1, n.store lib value p2)

def ParamGroup.digit : ParamGroup → UInt8
  | .one => digitOne
  | .two => digitTwo

/-- The string is `before`, its first colon, and `after`. -/
def SplitsAtColon (input before after : List UInt8) : Prop := input = before ++ colon :: after ∧ colon ∉ before

namespace ParamName

theorem ofText_eq_some_iff {name : List UInt8} {n : ParamName} : ofText name = some n ↔ name = n.text := by
  constructor
  · intro h
    unfold ofText at h
    have hmatch := List.find?_some h
    exact of_decide_eq_true hmatch
  · rintro rfl
    cases n <;> decide

theorem length_text_le (n : ParamName) : n.text.length ≤ 11 := by cases n <;> decide

end ParamName

theorem underscore_ne_digit (g : ParamGroup) : underscore ≠ g.digit := by cases g <;> decide

theorem group_of_digit (g : ParamGroup) :
    (if g.digit - digitZero = 1 then ParamGroup.one else .two) = g := by cases g <;> decide

theorem digit_mark (g : ParamGroup) : g.digit = digitOne ∨ g.digit = digitTwo := by cases g <;> decide

theorem digit_of_mark {mark : UInt8} (h : mark = digitOne ∨ mark = digitTwo) :
    (if mark - digitZero = 1 then ParamGroup.one else .two).digit = mark := by
  rcases h with rfl | rfl <;> decide

/-- A byte that is a digit is inside the name, not its terminator. -/
theorem drop_of_mark {name : List UInt8} {k : ℕ} (h : name.getD k 0 = digitOne ∨ name.getD k 0 = digitTwo) :
    name.drop k = name.getD k 0 :: name.drop (k + 1) := by
  have hk : k < name.length := by
    by_contra hk
    rw [List.getD_eq_default _ _ (Nat.le_of_not_lt hk)] at h
    exact absurd h (by decide)
  rw [List.getD_eq_getElem _ _ hk, List.drop_eq_getElem_cons hk]

theorem drop_past_colon (before after : List UInt8) : (before ++ colon :: after).drop (before.length + 1) = after := by
  simp

/-- What precedes the first colon is unique, and so is what follows it. -/
theorem SplitsAtColon.unique {input before after before' after' : List UInt8} (h : SplitsAtColon input before after)
    (h' : SplitsAtColon input before' after') : before = before' ∧ after = after' := by
  obtain ⟨hinput, hfirst⟩ := h
  obtain ⟨hinput', hfirst'⟩ := h'
  have hsame : before ++ colon :: after = before' ++ colon :: after' := hinput.symm.trans hinput'
  have hlen : before.length = before'.length := by
    have hk : strchr (before ++ colon :: after) colon = some before.length := strchr_append hfirst
    rw [hsame, strchr_append hfirst', Option.some.injEq] at hk
    exact hk.symm
  obtain ⟨hbefore, hafter⟩ := List.append_inj hsame hlen
  exact ⟨hbefore, (List.cons.inj hafter).2⟩

theorem parseName_eq_ok_iff {name : List UInt8} {g : ParamGroup} {n : ParamName} :
    parseName name = .ok (g, n) ↔ ∃ junk, name = n.text ++ underscore :: g.digit :: junk ∧ underscore ∉ junk := by
  unfold parseName
  constructor
  · intro h
    cases hlast : strrchr name underscore with
    | none => simp [hlast] at h
    | some suffix =>
        obtain ⟨hsplit, hjunk, -⟩ := strrchr_eq_some hlast
        simp only [hlast] at h
        by_cases hmark : name.getD (suffix + 1) 0 = digitOne ∨ name.getD (suffix + 1) 0 = digitTwo
        case neg => simp only [if_neg hmark, reduceCtorEq] at h
        rw [if_pos hmark] at h
        cases htext : ParamName.ofText (name.take suffix) with
        | none => simp [htext] at h
        | some m =>
            simp only [htext, Except.ok.injEq, Prod.mk.injEq] at h
            obtain ⟨rfl, rfl⟩ := h
            have hdrop := drop_of_mark hmark
            refine ⟨name.drop (suffix + 2), ?_, fun hmem => hjunk ?_⟩
            · rw [digit_of_mark hmark, ← hdrop, ← ParamName.ofText_eq_some_iff.mp htext]
              exact hsplit
            · rw [hdrop]
              exact List.mem_cons_of_mem _ hmem
  · rintro ⟨junk, rfl, hjunk⟩
    have hlast : strrchr (n.text ++ underscore :: g.digit :: junk) underscore = some n.text.length :=
      strrchr_append (List.mem_cons.not.mpr (not_or.mpr ⟨underscore_ne_digit g, hjunk⟩))
    have hmark : (n.text ++ underscore :: g.digit :: junk).getD (n.text.length + 1) 0 = g.digit := by
      have hone : n.text.length + 1 - n.text.length = 1 := by omega
      rw [List.getD_append_right _ _ _ _ (Nat.le_succ _), Nat.succ_eq_add_one, hone]
      rfl
    simp only [hlast, hmark, if_pos (digit_mark g), List.take_left, ParamName.ofText_eq_some_iff.mpr rfl,
      group_of_digit]

/-- **What is accepted.** A name, an underscore, the group's digit and any more bytes without a further
underscore, in under 20 bytes before the first colon. -/
theorem parseCommand_eq_ok_iff {input : List UInt8} {cmd : Command} :
    parseCommand input = .ok cmd ↔ ∃ junk,
      SplitsAtColon input (cmd.name.text ++ underscore :: cmd.group.digit :: junk) cmd.value ∧
        underscore ∉ junk ∧ (cmd.name.text ++ underscore :: cmd.group.digit :: junk).length < 20 := by
  unfold parseCommand
  constructor
  · intro h
    cases hcolon : strchr input colon with
    | none => simp [hcolon] at h
    | some nameLen =>
        obtain ⟨hinput, hfirst, hlen⟩ := strchr_eq_some hcolon
        simp only [hcolon] at h
        split_ifs at h with hlong
        cases hname : parseName (input.take nameLen) with
        | error e => simp [hname] at h
        | ok found =>
            obtain ⟨g, n⟩ := found
            simp only [hname, Except.ok.injEq] at h
            obtain ⟨junk, htext, hjunk⟩ := parseName_eq_ok_iff.mp hname
            rw [htext] at hinput hfirst hlen
            subst h
            exact ⟨junk, ⟨hinput, hfirst⟩, hjunk, lt_of_eq_of_lt hlen (Nat.not_le.mp hlong)⟩
  · rintro ⟨junk, ⟨hinput, hfirst⟩, hjunk, hlen⟩
    have hname : parseName (cmd.name.text ++ underscore :: cmd.group.digit :: junk) = .ok (cmd.group, cmd.name) :=
      parseName_eq_ok_iff.mpr ⟨junk, rfl, hjunk⟩
    rw [hinput, strchr_append hfirst]
    simp only [if_neg (Nat.not_le.mpr hlen), List.take_left, hname]
    rw [drop_past_colon]

end FocFirmware

import FocFirmware.CommandParser
import Mathlib.Data.Int.Basic

/-! The command grammar. A command is a name with `_1` or `_2` before the first colon, and it changes the
field of that name in that group. The check of the group does not look past the digit, so what follows the
digit is taken too. -/

namespace FocFirmware

open CStrings

/-- The value a field holds: a float, or one of the two flags. -/
abbrev ParamValue (F : Type) := F ⊕ UInt8

namespace ParamName

def read {F : Type} (p : PidParams F) : ParamName → ParamValue F
  | .currentSet => .inr p.currentSetFlag
  | .currentKP => .inl p.currentKP
  | .currentKI => .inl p.currentKI
  | .currentKD => .inl p.currentKD
  | .iq => .inl p.iq
  | .id => .inl p.id
  | .speedSet => .inr p.speedSetFlag
  | .speedKP => .inl p.speedKP
  | .speedKI => .inl p.speedKI
  | .speedKD => .inl p.speedKD
  | .speed => .inl p.speed

/-- The value a text denotes for a field: the two flags are integers, the rest floats. -/
def convert {F : Type} (lib : CLibrary F) (value : List UInt8) (n : ParamName) : ParamValue F :=
  if n = .currentSet ∨ n = .speedSet then .inr (UInt8.ofInt (lib.strtol value)) else .inl (lib.strtof value)

/-- A branch writes its own field and no other. -/
theorem read_store {F : Type} (lib : CLibrary F) (value : List UInt8) (p : PidParams F) (m n : ParamName) :
    m.read (n.store lib value p) = if m = n then n.convert lib value else m.read p := by
  cases m <;> cases n <;> rfl

end ParamName

/-- A field of the two parameter sets. -/
def readParam {F : Type} (p : PidParams F × PidParams F) : ParamGroup → ParamName → ParamValue F
  | .one, m => m.read p.1
  | .two, m => m.read p.2

/-- The input is a command: before its first colon stands the name, an underscore and the group. -/
def IsCommand (input : List UInt8) (cmd : Command) : Prop :=
  SplitsAtColon input (cmd.name.text ++ [underscore, cmd.group.digit]) cmd.value

/-- A command sets its field, in its group, to its value; any other input changes nothing. -/
def FollowsGrammar {F : Type} (lib : CLibrary F) (input : CString) : Prop :=
  ∀ p1 p2 : PidParams F,
    (∀ cmd, IsCommand input.bytes cmd → ∀ g m, readParam (parseAndSetPid lib input p1 p2) g m =
      if g = cmd.group ∧ m = cmd.name then cmd.name.convert lib cmd.value else readParam (p1, p2) g m) ∧
    ((¬∃ cmd, IsCommand input.bytes cmd) → parseAndSetPid lib input p1 p2 = (p1, p2))

/-- The name part is a name, an underscore, a group and more bytes, none of them an underscore. -/
def BytesAfterGroup (input : List UInt8) : Prop :=
  ∃ cmd : Command, ∃ junk, junk ≠ [] ∧ underscore ∉ junk ∧
    SplitsAtColon input (cmd.name.text ++ underscore :: cmd.group.digit :: junk) cmd.value ∧
    (cmd.name.text ++ underscore :: cmd.group.digit :: junk).length < 20

section

variable {F : Type} {lib : CLibrary F} {input : CString} {cmd : Command} {p1 p2 : PidParams F}

theorem readParam_of_ok (h : parseCommand input.bytes = .ok cmd) (g : ParamGroup) (m : ParamName) :
    readParam (parseAndSetPid lib input p1 p2) g m =
      if g = cmd.group ∧ m = cmd.name then cmd.name.convert lib cmd.value else readParam (p1, p2) g m := by
  obtain ⟨group, n, value⟩ := cmd
  cases group <;> cases g <;> simp [parseAndSetPid, h, readParam, ParamName.read_store]

theorem parseAndSetPid_of_error {e : ParseError} (h : parseCommand input.bytes = .error e) :
    parseAndSetPid lib input p1 p2 = (p1, p2) := by
  rw [parseAndSetPid, h]

theorem parseCommand_of_isCommand (h : IsCommand input.bytes cmd) : parseCommand input.bytes = .ok cmd := by
  have hlen := cmd.name.length_text_le
  refine parseCommand_eq_ok_iff.mpr ⟨[], h, List.not_mem_nil, ?_⟩
  rw [List.length_append, List.length_cons, List.length_singleton]
  omega

/-- What is accepted is a command, or a command with bytes after its group. -/
theorem isCommand_or_bytesAfterGroup (h : parseCommand input.bytes = .ok cmd) :
    IsCommand input.bytes cmd ∨ BytesAfterGroup input.bytes := by
  obtain ⟨junk, hsplit, hjunk, hlen⟩ := parseCommand_eq_ok_iff.mp h
  by_cases hempty : junk = []
  · rw [hempty] at hsplit
    exact .inl hsplit
  · exact .inr ⟨cmd, junk, hempty, hjunk, hsplit, hlen⟩

/-- The last underscore tells a command from one with bytes after its group. -/
theorem not_isCommand_of_bytesAfterGroup (h : BytesAfterGroup input.bytes) : ¬∃ cmd, IsCommand input.bytes cmd := by
  obtain ⟨cmd', junk, hjunk, hunderscore, hsplit', -⟩ := h
  rintro ⟨cmd, hsplit⟩
  obtain ⟨hbefore, -⟩ := hsplit.unique hsplit'
  have hlast : strrchr (cmd.name.text ++ [underscore, cmd.group.digit]) underscore = some cmd.name.text.length :=
    strrchr_append (List.mem_singleton.not.mpr (underscore_ne_digit _))
  have hlast' : strrchr (cmd'.name.text ++ underscore :: cmd'.group.digit :: junk) underscore =
      some cmd'.name.text.length :=
    strrchr_append (List.mem_cons.not.mpr (not_or.mpr ⟨underscore_ne_digit _, hunderscore⟩))
  rw [← hbefore, hlast, Option.some.injEq] at hlast'
  have hafter := (List.append_inj hbefore hlast').2
  exact hjunk (List.cons.inj (List.cons.inj hafter).2).2.symm

/-- What is accepted is assigned; some contents show it. -/
theorem changes_of_ok [Nontrivial F] (lib : CLibrary F) (hok : parseCommand input.bytes = .ok cmd) :
    ∃ p1 p2 : PidParams F, parseAndSetPid lib input p1 p2 ≠ (p1, p2) := by
  obtain ⟨x, hx⟩ := exists_ne (lib.strtof cmd.value)
  have hflags : Nontrivial UInt8 := ⟨0, 1, by decide⟩
  obtain ⟨b, hb⟩ := exists_ne (UInt8.ofInt (lib.strtol cmd.value))
  -- every field of `p` differs from the value it would be given
  let p : PidParams F := ⟨x, x, x, x, x, b, x, x, x, x, b⟩
  have hdiffers : ∀ m : ParamName, m.convert lib cmd.value ≠ m.read p := by
    intro m
    cases m <;> simp [ParamName.convert, ParamName.read, p, hx.symm, hb.symm]
  refine ⟨p, p, fun hsame => hdiffers cmd.name ?_⟩
  have hread : readParam (parseAndSetPid lib input p p) cmd.group cmd.name = _ := readParam_of_ok hok _ _
  rw [hsame, if_pos ⟨rfl, rfl⟩] at hread
  rw [← hread]
  cases cmd.group <;> rfl

theorem changes_of_bytesAfterGroup [Nontrivial F] (lib : CLibrary F) (h : BytesAfterGroup input.bytes) :
    ∃ p1 p2 : PidParams F, parseAndSetPid lib input p1 p2 ≠ (p1, p2) := by
  obtain ⟨cmd, junk, -, hunderscore, hsplit, hlen⟩ := h
  exact changes_of_ok lib (parseCommand_eq_ok_iff.mpr ⟨junk, hsplit, hunderscore, hlen⟩)

end

/-- **The grammar.** An input is treated as the grammar says exactly when its name part is not a command
with further bytes after its group. -/
theorem follows_grammar_iff {F : Type} [Nontrivial F] (lib : CLibrary F) (input : CString) :
    FollowsGrammar lib input ↔ ¬BytesAfterGroup input.bytes := by
  constructor
  · intro hfollows hbytes
    obtain ⟨p1, p2, hchanged⟩ := changes_of_bytesAfterGroup lib hbytes
    exact hchanged ((hfollows p1 p2).2 (not_isCommand_of_bytesAfterGroup hbytes))
  · intro hclean p1 p2
    refine ⟨fun cmd hcmd g m => readParam_of_ok (parseCommand_of_isCommand hcmd) g m, fun hnone => ?_⟩
    cases hparse : parseCommand input.bytes with
    | error e => exact parseAndSetPid_of_error hparse
    | ok cmd =>
        rcases isCommand_or_bytesAfterGroup hparse with hcmd | hbytes
        · exact absurd ⟨cmd, hcmd⟩ hnone
        · exact absurd hbytes hclean

theorem follows_grammar_iff_speed_one :
    let lib : CLibrary ℤ := ⟨fun _ => 5, fun _ => 5⟩
    let input : CString := ⟨ascii "Speed_1:5", by decide⟩
    FollowsGrammar lib input ↔ ¬BytesAfterGroup input.bytes :=
  follows_grammar_iff _ _

/-- `Speed_12:5` is not a command, yet it sets the speed of the first group. -/
theorem grammar_broken_by_two_digits :
    let lib : CLibrary ℤ := ⟨fun _ => 5, fun _ => 5⟩
    let p : PidParams ℤ := ⟨0, 0, 0, 0, 0, 0, 0, 0, 0, 0, 0⟩
    let input : CString := ⟨ascii "Speed_12:5", by decide⟩
    (¬∃ cmd, IsCommand input.bytes cmd) ∧ parseAndSetPid lib input p p = ({ p with speed := 5 }, p) ∧
      ¬FollowsGrammar lib input := by
  intro lib p input
  have hbytes : BytesAfterGroup input.bytes :=
    ⟨⟨.one, .speed, ascii "5"⟩, ascii "2", by decide, by decide, ⟨by decide, by decide⟩, by decide⟩
  have hnone := not_isCommand_of_bytesAfterGroup hbytes
  have hok : parseCommand input.bytes = .ok ⟨.one, .speed, ascii "5"⟩ :=
    parseCommand_eq_ok_iff.mpr ⟨ascii "2", ⟨by decide, by decide⟩, by decide, by decide⟩
  have hset : parseAndSetPid lib input p p = ({ p with speed := 5 }, p) := by
    rw [parseAndSetPid, hok]
    rfl
  refine ⟨hnone, hset, fun hfollows => ?_⟩
  have hsame := (hfollows p p).2 hnone
  rw [hset] at hsame
  exact absurd (congrArg (fun q => q.1.speed) hsame) (by decide)

end FocFirmware

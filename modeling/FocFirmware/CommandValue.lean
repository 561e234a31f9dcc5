import FocFirmware.BaseCNumber
import FocFirmware.CommandStore

/-! The values of commands. The console converts whatever follows the colon and assigns the result, so a
text without a number sets zero and an integer too large for a flag is cut to its low byte. -/

namespace FocFirmware

open CStrings CNumbers

/-- `strtof` and `strtol`, for floats that numbers are rounded to by `round`. -/
def standardLibrary {F : Type} (round : CNumber → F) : CLibrary F := ⟨strtof round, strtol⟩

/-- The two flags, converted with `strtol`. -/
def ParamName.IsFlag (n : ParamName) : Prop := n = .currentSet ∨ n = .speedSet

instance (n : ParamName) : Decidable n.IsFlag := inferInstanceAs (Decidable (n = .currentSet ∨ n = .speedSet))

/-- The text begins with a number, and with one from 0 to 255 for a flag. -/
def ValueWellFormed (n : ParamName) (text : List UInt8) : Prop :=
  if n.IsFlag then ∃ z, integerAt text = some z ∧ 0 ≤ z ∧ z ≤ 255 else ∃ x, numberAt text = some x

/-- The value is the number that the text denotes: rounded for a float, that integer for a flag. -/
def Denotes {F : Type} (round : CNumber → F) (text : List UInt8) : ParamValue F → Prop
  | .inl v => ∃ x, numberAt text = some x ∧ v = round x
  | .inr b => integerAt text = some (b.toNat : ℤ)

/-- A well-formed value is stored as sent, any other changes nothing. -/
structure StoredAsSent {F : Type} (round : CNumber → F) (input : CString) (cmd : Command) : Prop where
  accepted : ValueWellFormed cmd.name cmd.value → ∀ p1 p2 : PidParams F,
    Denotes round cmd.value (readParam (parseAndSetPid (standardLibrary round) input p1 p2) cmd.group cmd.name)
  refused : ¬ValueWellFormed cmd.name cmd.value → ∀ p1 p2 : PidParams F,
    parseAndSetPid (standardLibrary round) input p1 p2 = (p1, p2)

theorem toNat_ofInt {z : ℤ} (hlow : 0 ≤ z) (hhigh : z ≤ 255) : ((UInt8.ofInt z).toNat : ℤ) = z := by
  obtain ⟨n, rfl⟩ := Int.eq_ofNat_of_zero_le hlow
  simp only [UInt8.ofInt, UInt8.toNat_ofNat']
  omega

/-- A well-formed text is converted to what it denotes. -/
theorem convert_denotes {F : Type} (round : CNumber → F) {n : ParamName} {text : List UInt8} (h : ValueWellFormed n text) :
    Denotes round text (n.convert (standardLibrary round) text) := by
  unfold ValueWellFormed at h
  by_cases hflag : n.IsFlag
  · rw [if_pos hflag] at h
    obtain ⟨z, hz, hlow, hhigh⟩ := h
    have hconvert : n.convert (standardLibrary round) text = .inr (UInt8.ofInt (strtol text)) := if_pos hflag
    have hstrtol : strtol text = z := strtol_of_mem hz (by omega) (by omega)
    rw [hconvert, hstrtol, Denotes, toNat_ofInt hlow hhigh, hz]
  · rw [if_neg hflag] at h
    obtain ⟨x, hx⟩ := h
    have hconvert : n.convert (standardLibrary round) text = .inl (strtof round text) := if_neg hflag
    rw [hconvert]
    exact ⟨x, hx, strtof_of_number round hx⟩

/-- **The values.** An input that addresses a field has its value stored as sent, or refused if malformed,
exactly when it is well formed: no value is ever refused. -/
theorem stored_as_sent_iff {F : Type} [Nontrivial F] (round : CNumber → F) (input : CString) (cmd : Command)
    (haddresses : Addresses input cmd) : StoredAsSent round input cmd ↔ ValueWellFormed cmd.name cmd.value := by
  have hok : parseCommand input.bytes = .ok cmd := parseCommand_eq_ok_iff.mpr haddresses
  constructor
  · intro hstored
    by_contra hmalformed
    obtain ⟨p1, p2, hchanged⟩ := changes_of_ok (standardLibrary round) hok
    exact hchanged (hstored.refused hmalformed p1 p2)
  · intro hvalue
    refine ⟨fun _ p1 p2 => ?_, fun hmalformed => absurd hvalue hmalformed⟩
    rw [readParam_of_ok hok, if_pos ⟨rfl, rfl⟩]
    exact convert_denotes round hvalue

theorem stored_as_sent_iff_flag_set :
    let input : CString := ⟨ascii "Current_SET_2: 200", by decide⟩
    let cmd : Command := ⟨.two, .currentSet, ascii " 200"⟩
    StoredAsSent (id : CNumber → CNumber) input cmd ↔ ValueWellFormed cmd.name cmd.value := by
  intro input cmd
  have hnontrivial : Nontrivial CNumber := ⟨⟨false, .infinite⟩, ⟨true, .infinite⟩, by decide⟩
  exact stored_as_sent_iff id input cmd ⟨[], ⟨by decide, by decide⟩, by decide, by decide⟩

/-- `Speed_1:abc` sets the speed to zero, and `Current_SET_2:256` clears the flag. -/
theorem malformed_values_stored :
    let lib := standardLibrary (id : CNumber → CNumber)
    let one : CNumber := ⟨false, .finite 1⟩
    let p : PidParams CNumber := ⟨one, one, one, one, one, 1, one, one, one, one, 1⟩
    let word : CString := ⟨ascii "Speed_1:abc", by decide⟩
    let large : CString := ⟨ascii "Current_SET_2:256", by decide⟩
    parseAndSetPid lib word p p = ({ p with speed := ⟨false, .finite 0⟩ }, p) ∧
      parseAndSetPid lib large p p = (p, { p with currentSetFlag := 0 }) ∧
      ¬StoredAsSent id word ⟨.one, .speed, ascii "abc"⟩ ∧ ¬StoredAsSent id large ⟨.two, .currentSet, ascii "256"⟩ := by
  intro lib one p word large
  have hword : parseCommand word.bytes = .ok ⟨.one, .speed, ascii "abc"⟩ :=
    parseCommand_eq_ok_iff.mpr ⟨[], ⟨by decide, by decide⟩, by decide, by decide⟩
  have hlarge : parseCommand large.bytes = .ok ⟨.two, .currentSet, ascii "256"⟩ :=
    parseCommand_eq_ok_iff.mpr ⟨[], ⟨by decide, by decide⟩, by decide, by decide⟩
  have hsetWord : parseAndSetPid lib word p p = ({ p with speed := ⟨false, .finite 0⟩ }, p) := by
    rw [parseAndSetPid, hword]
    rfl
  have hsetLarge : parseAndSetPid lib large p p = (p, { p with currentSetFlag := 0 }) := by
    rw [parseAndSetPid, hlarge]
    rfl
  refine ⟨hsetWord, hsetLarge, fun hstored => ?_, fun hstored => ?_⟩
  · have hsame := hstored.refused ?_ p p
    · rw [hsetWord] at hsame
      exact absurd (congrArg (fun q => q.1.speed) hsame) (by decide)
    · rw [ValueWellFormed, if_neg (by decide)]
      rintro ⟨x, hx⟩
      have hnone : numberAt (ascii "abc") = none := by decide
      rw [hnone] at hx
      cases hx
  · have hsame := hstored.refused ?_ p p
    · rw [hsetLarge] at hsame
      exact absurd (congrArg (fun q => q.2.currentSetFlag) hsame) (by decide)
    · rw [ValueWellFormed, if_pos (by decide)]
      rintro ⟨z, hz, -, hhigh⟩
      have hz' : integerAt (ascii "256") = some 256 := by decide
      rw [hz', Option.some.injEq] at hz
      omega

end FocFirmware

import FocFirmware.BaseCalls
import FocFirmware.EncoderDriver

/-! The accesses of the driver to SPI1, in their order. The call of `Mt6701GetAngle` as a tree of accesses; what it
can be seen to do in some frames is a language with a grammar of its own, and every word of it is what it does
with some device. -/

namespace FocFirmware

open Calls

/-- One access to the peripheral or to the chip select. -/
inductive SpiRequest where
  | select
  | deselect
  | poll (flag : SpiFlag)
  | transmit (data : UInt16)
  | receive

abbrev SpiRequest.Answer : SpiRequest → Type
  | .poll _ => Bool
  | .receive => UInt16
  | .select | .deselect | .transmit _ => Unit

abbrev SpiAccess : Type := Access SpiRequest.Answer

abbrev SpiCall (α : Type) : Type := Call SpiRequest SpiRequest.Answer α

section Driver

/-- A wait loop, with `left` passes still to come before it gives up. -/
def waitCall (flag : SpiFlag) : ℕ → SpiCall Bool
  | 0 => .ask (.poll flag) .done
  | left + 1 => .ask (.poll flag) fun
      | true => .done true
      | false => waitCall flag left

/-- `Mt6701SpiReadByte`. -/
def readByteCall : SpiCall ReadPath :=
  (waitCall .tdbe 10).bind fun
    | false => .done .tdbeTimeout
    | true => .ask (.transmit 0x00) fun _ => (waitCall .rdbf 10).bind fun
        | false => .done .rdbfTimeout
        | true => .ask .receive fun data => .done (.received data.toUInt8)

/-- The accesses of `Mt6701GetAngle`. -/
def frameCall : SpiCall (ReadPath × ReadPath × ReadPath) :=
  .ask .select fun _ =>
    readByteCall.bind fun path1 => readByteCall.bind fun path2 => readByteCall.bind fun path3 =>
      .ask .deselect fun _ => .done (path1, path2, path3)

end Driver

/-- A wait loop with `left` passes to come before it gives up: it ends at the first poll that finds the flag
set, or after all of them. -/
inductive WaitTrace (flag : SpiFlag) (left : ℕ) : Bool → List SpiAccess → Prop where
  | shown {missed : ℕ} (h : missed ≤ left) :
      WaitTrace flag left true (List.replicate missed ⟨.poll flag, false⟩ ++ [⟨.poll flag, true⟩])
  | givenUp : WaitTrace flag left false (List.replicate (left + 1) ⟨.poll flag, false⟩)

/-- One call of `Mt6701SpiReadByte`. -/
inductive ByteTrace : ReadPath → List SpiAccess → Prop where
  | tdbeTimeout {t : List SpiAccess} (ht : WaitTrace .tdbe 10 false t) : ByteTrace .tdbeTimeout t
  | rdbfTimeout {t u : List SpiAccess} (ht : WaitTrace .tdbe 10 true t) (hu : WaitTrace .rdbf 10 false u) :
      ByteTrace .rdbfTimeout (t ++ ⟨.transmit 0x00, ()⟩ :: u)
  | received {t u : List SpiAccess} (ht : WaitTrace .tdbe 10 true t) (hu : WaitTrace .rdbf 10 true u) (data : UInt16) :
      ByteTrace (.received data.toUInt8) (t ++ ⟨.transmit 0x00, ()⟩ :: (u ++ [⟨.receive, data⟩]))

/-- One call of `Mt6701GetAngle`: three bytes under the chip select. -/
inductive FrameTrace : ReadPath × ReadPath × ReadPath → List SpiAccess → Prop where
  | mk {path1 path2 path3 : ReadPath} {t1 t2 t3 : List SpiAccess} (h1 : ByteTrace path1 t1) (h2 : ByteTrace path2 t2)
      (h3 : ByteTrace path3 t3) : FrameTrace (path1, path2, path3) (⟨.select, ()⟩ :: (t1 ++ (t2 ++ (t3 ++ [⟨.deselect, ()⟩]))))

/-- Frame after frame. -/
inductive SessionTrace : List (ReadPath × ReadPath × ReadPath) → List SpiAccess → Prop where
  | nil : SessionTrace [] []
  | snoc {frames : List (ReadPath × ReadPath × ReadPath)} {paths : ReadPath × ReadPath × ReadPath} {t u : List SpiAccess}
      (ht : SessionTrace frames t) (hu : FrameTrace paths u) : SessionTrace (frames ++ [paths]) (t ++ u)

section Grammar

variable {t : List SpiAccess}

theorem waitTrace_false_succ {flag : SpiFlag} {left : ℕ} {set : Bool} :
    WaitTrace flag (left + 1) set (⟨.poll flag, false⟩ :: t) ↔ WaitTrace flag left set t := by
  constructor
  · intro h
    generalize hu : (⟨.poll flag, false⟩ :: t : List SpiAccess) = u at h
    cases h with
    | givenUp =>
        obtain rfl := List.tail_eq_of_cons_eq hu
        exact .givenUp
    | @shown missed h =>
        cases missed with
        | zero => simp at hu
        | succ missed =>
            obtain rfl := List.tail_eq_of_cons_eq hu
            exact .shown (Nat.le_of_succ_le_succ h)
  · rintro (h | _)
    · exact .shown (Nat.succ_le_succ h)
    · exact .givenUp

theorem waitTrace_true_cons {flag : SpiFlag} {left : ℕ} {set : Bool} :
    WaitTrace flag left set (⟨.poll flag, true⟩ :: t) ↔ set = true ∧ t = [] := by
  constructor
  · intro h
    generalize hu : (⟨.poll flag, true⟩ :: t : List SpiAccess) = u at h
    cases h with
    | givenUp => simp [List.replicate_succ] at hu
    | @shown missed h =>
        cases missed with
        | zero => exact ⟨rfl, List.tail_eq_of_cons_eq hu⟩
        | succ missed => simp [List.replicate_succ] at hu
  · rintro ⟨rfl, rfl⟩
    exact .shown (Nat.zero_le left)

/-- The loop polls at least once, and gives up after a last poll. -/
theorem waitTrace_zero {flag : SpiFlag} {set : Bool} : WaitTrace flag 0 set t ↔ t = [⟨.poll flag, set⟩] := by
  constructor
  · rintro (h | _)
    · obtain rfl := Nat.le_zero.mp h
      rfl
    · rfl
  · rintro rfl
    cases set with
    | true => exact .shown le_rfl
    | false => exact .givenUp

theorem waitTrace_cons {flag : SpiFlag} {left : ℕ} {set : Bool} (h : WaitTrace flag left set t) :
    ∃ found rest, t = ⟨.poll flag, found⟩ :: rest := by
  cases h with
  | givenUp => exact ⟨_, _, List.replicate_succ⟩
  | @shown missed h =>
      cases missed with
      | zero => exact ⟨_, _, rfl⟩
      | succ missed => exact ⟨false, _, rfl⟩

theorem trace_waitCall {flag : SpiFlag} {left : ℕ} {set : Bool} :
    (waitCall flag left).Trace t set ↔ WaitTrace flag left set t := by
  induction left generalizing t with
  | zero =>
      rw [waitCall, Call.trace_ask, waitTrace_zero]
      constructor
      · rintro ⟨found, rest, rfl, hrest⟩
        obtain ⟨rfl, rfl⟩ := Call.trace_done.mp hrest
        rfl
      · rintro rfl
        exact ⟨set, [], rfl, .done set⟩
  | succ left ih =>
      rw [waitCall, Call.trace_ask]
      constructor
      · rintro ⟨_ | _, rest, rfl, hrest⟩
        · exact waitTrace_false_succ.mpr (ih.mp hrest)
        · obtain ⟨rfl, rfl⟩ := Call.trace_done.mp hrest
          exact waitTrace_true_cons.mpr ⟨rfl, rfl⟩
      · intro h
        obtain ⟨_ | _, rest, rfl⟩ := waitTrace_cons h
        · exact ⟨false, rest, rfl, ih.mpr (waitTrace_false_succ.mp h)⟩
        · obtain ⟨rfl, rfl⟩ := waitTrace_true_cons.mp h
          exact ⟨true, [], rfl, .done true⟩

theorem trace_readByteCall {path : ReadPath} : readByteCall.Trace t path ↔ ByteTrace path t := by
  rw [readByteCall, Call.trace_bind]
  constructor
  · rintro ⟨_ | _, t, later, rfl, ht, hlater⟩
    · obtain ⟨rfl, rfl⟩ := Call.trace_done.mp hlater
      rw [List.append_nil]
      exact .tdbeTimeout (trace_waitCall.mp ht)
    · obtain ⟨-, later, rfl, hsent⟩ := Call.trace_ask.mp hlater
      obtain ⟨_ | _, u, last, rfl, hu, hlast⟩ := Call.trace_bind.mp hsent
      · obtain ⟨rfl, rfl⟩ := Call.trace_done.mp hlast
        rw [List.append_nil]
        exact .rdbfTimeout (trace_waitCall.mp ht) (trace_waitCall.mp hu)
      · obtain ⟨data, none, rfl, hdone⟩ := Call.trace_ask.mp hlast
        obtain ⟨rfl, rfl⟩ := Call.trace_done.mp hdone
        exact .received (trace_waitCall.mp ht) (trace_waitCall.mp hu) data
  · intro h
    cases h with
    | tdbeTimeout ht => exact ⟨false, t, [], (List.append_nil t).symm, trace_waitCall.mpr ht, .done _⟩
    | rdbfTimeout ht hu =>
        refine ⟨true, _, _, rfl, trace_waitCall.mpr ht, Call.trace_ask.mpr ⟨(), _, rfl, Call.trace_bind.mpr ?_⟩⟩
        exact ⟨false, _, [], (List.append_nil _).symm, trace_waitCall.mpr hu, .done _⟩
    | received ht hu data =>
        refine ⟨true, _, _, rfl, trace_waitCall.mpr ht, Call.trace_ask.mpr ⟨(), _, rfl, Call.trace_bind.mpr ?_⟩⟩
        exact ⟨true, _, _, rfl, trace_waitCall.mpr hu, Call.trace_ask.mpr ⟨data, [], rfl, .done _⟩⟩

theorem trace_frameCall {paths : ReadPath × ReadPath × ReadPath} : frameCall.Trace t paths ↔ FrameTrace paths t := by
  rw [frameCall, Call.trace_ask]
  constructor
  · rintro ⟨-, selected, rfl, hselected⟩
    obtain ⟨path1, t1, rest1, rfl, h1, hrest1⟩ := Call.trace_bind.mp hselected
    obtain ⟨path2, t2, rest2, rfl, h2, hrest2⟩ := Call.trace_bind.mp hrest1
    obtain ⟨path3, t3, rest3, rfl, h3, hrest3⟩ := Call.trace_bind.mp hrest2
    obtain ⟨-, none, rfl, hdone⟩ := Call.trace_ask.mp hrest3
    obtain ⟨rfl, rfl⟩ := Call.trace_done.mp hdone
    exact .mk (trace_readByteCall.mp h1) (trace_readByteCall.mp h2) (trace_readByteCall.mp h3)
  · intro h
    obtain ⟨h1, h2, h3⟩ := h
    refine ⟨(), _, rfl, ?_⟩
    refine Call.trace_bind.mpr ⟨_, _, _, rfl, trace_readByteCall.mpr h1, ?_⟩
    refine Call.trace_bind.mpr ⟨_, _, _, rfl, trace_readByteCall.mpr h2, ?_⟩
    exact Call.trace_bind.mpr ⟨_, _, _, rfl, trace_readByteCall.mpr h3, Call.trace_ask.mpr ⟨(), [], rfl, .done _⟩⟩

end Grammar

namespace SpiDevice

variable {σ : Type} (dev : SpiDevice σ)

/-- The device behind its five functions. -/
def answer : Device SpiRequest.Answer σ
  | .select, s => ((), dev.csLow s)
  | .deselect, s => ((), dev.csHigh s)
  | .poll flag, s => dev.flagGet flag s
  | .transmit data, s => ((), dev.dataTransmit data s)
  | .receive, s => dev.dataReceive s

/-- The device with its accesses written down. -/
def logged : SpiDevice (σ × List SpiAccess) where
  flagGet flag s :=
    let (set, t) := dev.flagGet flag s.1
    (set, t, s.2 ++ [⟨.poll flag, set⟩])
  dataTransmit data s := (dev.dataTransmit data s.1, s.2 ++ [⟨.transmit data, ()⟩])
  dataReceive s :=
    let (data, t) := dev.dataReceive s.1
    (data, t, s.2 ++ [⟨.receive, data⟩])
  csLow s := (dev.csLow s.1, s.2 ++ [⟨.select, ()⟩])
  csHigh s := (dev.csHigh s.1, s.2 ++ [⟨.deselect, ()⟩])

theorem answer_logged : dev.logged.answer = Calls.logged dev.answer := by
  funext r s
  cases r <;> rfl

theorem exec_waitCall (flag : SpiFlag) (left : ℕ) (s : σ) :
    (waitCall flag left).exec dev.answer s = dev.waitFlag flag left s := by
  induction left generalizing s with
  | zero => rfl
  | succ left ih =>
      have hask : dev.answer (.poll flag) s = dev.flagGet flag s := rfl
      rw [waitFlag, waitCall, Call.exec, hask]
      rcases dev.flagGet flag s with ⟨_ | _, t⟩
      · exact ih t
      · rfl

theorem exec_readByteCall (s : σ) : readByteCall.exec dev.answer s = dev.readByte s := by
  rw [readByteCall, Call.exec_bind, exec_waitCall, readByte]
  rcases dev.waitFlag .tdbe 10 s with ⟨_ | _, t⟩
  · rfl
  · have hask : dev.answer (.transmit 0x00) t = ((), dev.dataTransmit 0x00 t) := rfl
    dsimp only
    rw [Call.exec, hask, Call.exec_bind, exec_waitCall]
    rcases dev.waitFlag .rdbf 10 (dev.dataTransmit 0x00 t) with ⟨_ | _, u⟩ <;> rfl

/-- **The tree is the function.** -/
theorem exec_frameCall (s : σ) : frameCall.exec dev.answer s = dev.readFrame s := by
  rw [frameCall, Call.exec]
  simp only [Call.exec_bind, exec_readByteCall]
  rfl

/-- Any number of frames, written down. -/
theorem afterFrames_logged (s : σ) (n : ℕ) : ∃ frames t, SessionTrace frames t ∧ frames.length = n ∧
    dev.logged.afterFrames (s, []) n = (dev.afterFrames s n, t) := by
  induction n with
  | zero => exact ⟨[], [], .nil, rfl, rfl⟩
  | succ n ih =>
      obtain ⟨frames, t, ht, hlength, hafter⟩ := ih
      obtain ⟨u, hu, hread⟩ := exec_logged dev.answer frameCall (dev.afterFrames s n) t
      rw [← answer_logged, exec_frameCall, exec_frameCall] at hread
      refine ⟨_, _, ht.snoc (trace_frameCall.mp hu), ?_, ?_⟩
      · rw [List.length_append, hlength, List.length_singleton]
      · rw [afterFrames, hafter, hread]
        rfl

end SpiDevice

/-- The device that gives the answers of a script, one access after the other. -/
def replayDevice : SpiDevice (List SpiAccess) where
  flagGet _ script :=
    match script with
    | ⟨.poll _, set⟩ :: rest => (set, rest)
    | _ => (false, script)
  dataTransmit _ script := script.tail
  dataReceive script :=
    match script with
    | ⟨.receive, data⟩ :: rest => (data, rest)
    | _ => (0, script)
  csLow script := script.tail
  csHigh script := script.tail

theorem replayDevice_replays : Replays replayDevice.answer := by
  intro r answer rest
  cases r <;> rfl

/-- Every session is what the driver does with that device. -/
theorem SpiDevice.afterFrames_replay {frames : List (ReadPath × ReadPath × ReadPath)} {t : List SpiAccess}
    (h : SessionTrace frames t) (rest : List SpiAccess) :
    replayDevice.logged.afterFrames (t ++ rest, []) frames.length = (rest, t) := by
  induction h generalizing rest with
  | nil => rfl
  | @snoc frames paths t u ht hu ih =>
      have hread := replayDevice_replays.exec (trace_frameCall.mpr hu) rest t
      rw [← answer_logged, exec_frameCall] at hread
      rw [List.length_append, List.length_singleton, afterFrames, List.append_assoc, ih, hread]

end FocFirmware

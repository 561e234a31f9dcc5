import FocFirmware.EncoderDriver

/-! The alignment of encoder frames. Every transmission brings one byte back, some status polls later,
into a receive register that holds it until it is read. Transmissions are numbered, so a byte is known
by the transmission that fetched it. A read that gives up leaves its byte to arrive later, and from
then on a read finds the byte of an earlier transmission. -/

namespace FocFirmware

/-- What the hardware does at one status poll: how many bytes arrive before it, and TDBE. -/
structure SpiPoll where
  arrivals : ℕ
  tdbe : Bool

/-- SPI1 with the encoder behind it. -/
structure SpiPort where
  /-- status polls so far -/
  polled : ℕ
  /-- transmissions so far -/
  sent : ℕ
  /-- transmissions whose byte is still to come, oldest first -/
  inFlight : List ℕ
  /-- the transmission whose byte the receive register holds while RDBF is set -/
  rx : Option ℕ
  /-- the transmissions whose bytes the driver has read, in order -/
  taken : List ℕ
  deriving DecidableEq

namespace SpiPort

def reset : SpiPort := ⟨0, 0, [], none, []⟩

/-- The oldest byte arrives; the register keeps a byte not yet read, and the new one is lost. -/
def arrive (s : SpiPort) : SpiPort :=
  match s.inFlight, s.rx with
  | [], _ => s
  | j :: rest, none => { s with inFlight := rest, rx := some j }
  | _ :: rest, some _ => { s with inFlight := rest }

/-- The bytes fetched and not yet read, oldest first. -/
def pending (s : SpiPort) : List ℕ := s.rx.toList ++ s.inFlight

/-- No byte is on its way or waits to be read. -/
def Quiet (s : SpiPort) : Prop := s.pending = []

instance (s : SpiPort) : Decidable s.Quiet := inferInstanceAs (Decidable (s.pending = []))

end SpiPort

/-- SPI1 when transmission `j` fetches the byte `out j` and poll `i` finds the hardware at `polls i`. -/
def spi1 (out : ℕ → UInt8) (polls : ℕ → SpiPoll) : SpiDevice SpiPort where
  flagGet flag s :=
    let poll := polls s.polled
    let s := { SpiPort.arrive^[poll.arrivals] s with polled := s.polled + 1 }
    match flag with
    | .tdbe => (poll.tdbe, s)
    | .rdbf => (s.rx.isSome, s)
  dataTransmit _ s := { s with sent := s.sent + 1, inFlight := s.inFlight ++ [s.sent] }
  dataReceive s :=
    match s.rx with
    | none => (0, s)
    | some j => ((out j).toUInt16, { s with rx := none, taken := s.taken ++ [j] })
  csLow s := s
  csHigh s := s

namespace SpiPort

/-- What polling keeps: nothing is sent or read, bytes keep their order and the oldest is not lost. -/
structure Keeps (s t : SpiPort) : Prop where
  sent_eq : t.sent = s.sent
  taken_eq : t.taken = s.taken
  sublist : t.pending.Sublist s.pending
  head_eq : t.pending.head? = s.pending.head?

theorem Keeps.refl (s : SpiPort) : Keeps s s := ⟨rfl, rfl, List.Sublist.refl _, rfl⟩

theorem Keeps.trans {s t u : SpiPort} (hst : Keeps s t) (htu : Keeps t u) : Keeps s u :=
  ⟨htu.sent_eq.trans hst.sent_eq, htu.taken_eq.trans hst.taken_eq, htu.sublist.trans hst.sublist,
    htu.head_eq.trans hst.head_eq⟩

theorem arrive_keeps (s : SpiPort) : Keeps s s.arrive := by
  rcases s with ⟨polled, sent, inFlight, rx, taken⟩
  cases inFlight with
  | nil => exact Keeps.refl _
  | cons j rest =>
      cases rx with
      | none => exact ⟨rfl, rfl, by simp [arrive, pending], by simp [arrive, pending]⟩
      | some i => exact ⟨rfl, rfl, by simp [arrive, pending], by simp [arrive, pending]⟩

theorem arrivals_keep (s : SpiPort) (n : ℕ) : Keeps s (arrive^[n] s) := by
  induction n with
  | zero => exact Keeps.refl s
  | succ n ih =>
      rw [Function.iterate_succ_apply']
      exact ih.trans (arrive_keeps _)

theorem flagGet_keeps (out : ℕ → UInt8) (polls : ℕ → SpiPoll) (flag : SpiFlag) (s : SpiPort) :
    Keeps s ((spi1 out polls).flagGet flag s).2 := by
  have h := arrivals_keep s (polls s.polled).arrivals
  cases flag <;> exact ⟨h.sent_eq, h.taken_eq, h.sublist, h.head_eq⟩

theorem waitFlag_keeps (out : ℕ → UInt8) (polls : ℕ → SpiPoll) (flag : SpiFlag) (left : ℕ) (s : SpiPort) :
    Keeps s ((spi1 out polls).waitFlag flag left s).2 := by
  obtain ⟨t, ht, hlast⟩ := (spi1 out polls).waitFlag_last (R := Keeps) flag Keeps.refl
    (fun _ t ht => ht.trans (flagGet_keeps out polls flag t)) left s
  rw [← hlast]
  exact ht.trans (flagGet_keeps out polls flag t)

/-- A wait for RDBF that succeeds leaves the oldest pending byte in the register. -/
theorem waitFlag_rdbf_rx {out : ℕ → UInt8} {polls : ℕ → SpiPoll} {left : ℕ} {s t : SpiPort}
    (h : (spi1 out polls).waitFlag .rdbf left s = (true, t)) : ∃ j, t.rx = some j := by
  obtain ⟨t', -, hlast⟩ := (spi1 out polls).waitFlag_last (R := fun _ _ => True) .rdbf (fun _ => trivial)
    (fun _ _ _ => trivial) left s
  rw [h] at hlast
  obtain ⟨hset, rfl⟩ := Prod.mk.inj hlast
  exact Option.isSome_iff_exists.mp hset

/-- The bytes pending once a read has sent its own. -/
def pendingWith (s : SpiPort) : List ℕ := s.pending ++ [s.sent]

/-- What one read does, by the way it returns. -/
def ReadSpec (out : ℕ → UInt8) (s t : SpiPort) : ReadPath → Prop
  | .tdbeTimeout => Keeps s t
  | .rdbfTimeout => t.sent = s.sent + 1 ∧ t.taken = s.taken ∧ t.pending.Sublist s.pendingWith
  | .received byte => t.sent = s.sent + 1 ∧ t.pending.Sublist s.pendingWith.tail ∧
      ∃ j, s.pendingWith.head? = some j ∧ byte = out j ∧ t.taken = s.taken ++ [j]

theorem readByte_spec (out : ℕ → UInt8) (polls : ℕ → SpiPoll) (s : SpiPort) :
    ReadSpec out s ((spi1 out polls).readByte s).2 ((spi1 out polls).readByte s).1 := by
  have htdbe := waitFlag_keeps out polls .tdbe 10 s
  rw [SpiDevice.readByte]
  generalize (spi1 out polls).waitFlag .tdbe 10 s = answer at htdbe ⊢
  obtain ⟨_ | _, t⟩ := answer
  · exact htdbe
  · have hpending : ((spi1 out polls).dataTransmit 0x00 t).pending = t.pending ++ [s.sent] := by
      rw [← show t.sent = s.sent from htdbe.sent_eq]
      exact (List.append_assoc _ _ _).symm
    have hsent : ((spi1 out polls).dataTransmit 0x00 t).pending.Sublist s.pendingWith := by
      rw [hpending]
      exact htdbe.sublist.append (List.Sublist.refl _)
    have hhead : ((spi1 out polls).dataTransmit 0x00 t).pending.head? = s.pendingWith.head? := by
      rw [hpending, pendingWith, List.head?_append, List.head?_append, htdbe.head_eq]
    have hrdbf := waitFlag_keeps out polls .rdbf 10 ((spi1 out polls).dataTransmit 0x00 t)
    have hrx := @waitFlag_rdbf_rx out polls 10 ((spi1 out polls).dataTransmit 0x00 t)
    dsimp only
    generalize (spi1 out polls).waitFlag .rdbf 10 ((spi1 out polls).dataTransmit 0x00 t) = answer at hrdbf hrx ⊢
    have hcount : answer.2.sent = s.sent + 1 := hrdbf.sent_eq.trans (congrArg (· + 1) htdbe.sent_eq)
    have htaken : answer.2.taken = s.taken := hrdbf.taken_eq.trans htdbe.taken_eq
    have hsub := hrdbf.sublist.trans hsent
    have hfirst := hrdbf.head_eq.trans hhead
    obtain ⟨_ | _, u⟩ := answer
    · exact ⟨hcount, htaken, hsub⟩
    · obtain ⟨j, hj⟩ := hrx rfl
      simp only [pending, hj, Option.toList_some, List.singleton_append, List.head?_cons] at hsub hfirst
      simp only [spi1, hj]
      refine ⟨hcount, ?_, j, hfirst.symm, by simp, congrArg (· ++ [j]) htaken⟩
      simpa [pending] using hsub.tail

/-- Every pending byte belongs to a transmission already made. -/
def Numbered (s : SpiPort) : Prop := ∀ j ∈ s.pending, j < s.sent

theorem mem_pendingWith {s : SpiPort} (hs : s.Numbered) {j : ℕ} (hj : j ∈ s.pendingWith) : j < s.sent + 1 := by
  rcases List.mem_append.mp hj with hj | hj
  · exact Nat.lt_succ_of_lt (hs j hj)
  · rw [List.mem_singleton.mp hj]
    exact Nat.lt_succ_self _

section Reads

variable (out : ℕ → UInt8) (polls : ℕ → SpiPoll)

theorem readByte_numbered {s : SpiPort} (hs : s.Numbered) : ((spi1 out polls).readByte s).2.Numbered := by
  have hspec := readByte_spec out polls s
  generalize (spi1 out polls).readByte s = read at hspec ⊢
  obtain ⟨path, t⟩ := read
  intro j hj
  cases path with
  | tdbeTimeout =>
      rw [hspec.sent_eq]
      exact hs j (hspec.sublist.subset hj)
  | rdbfTimeout =>
      rw [hspec.1]
      exact mem_pendingWith hs (hspec.2.2.subset hj)
  | received byte =>
      rw [hspec.1]
      exact mem_pendingWith hs (List.mem_of_mem_tail (hspec.2.1.subset hj))

/-- Unless it gives up on its own byte, a read leaves a quiet port quiet. -/
theorem readByte_quiet {s : SpiPort} (hs : s.Quiet) (hpath : ((spi1 out polls).readByte s).1 ≠ .rdbfTimeout) :
    ((spi1 out polls).readByte s).2.Quiet := by
  have hspec := readByte_spec out polls s
  generalize (spi1 out polls).readByte s = read at hspec hpath ⊢
  obtain ⟨path, t⟩ := read
  cases path with
  | tdbeTimeout => exact List.sublist_nil.mp (hs ▸ hspec.sublist)
  | rdbfTimeout => exact absurd rfl hpath
  | received byte =>
      have htail : s.pendingWith.tail = [] := by rw [pendingWith, hs]; rfl
      exact List.sublist_nil.mp (htail ▸ hspec.2.1)

/-- From a quiet port a completed read returns the byte of its own transmission. -/
theorem readByte_own {s t : SpiPort} {byte : UInt8} (hs : s.Quiet)
    (hread : (spi1 out polls).readByte s = (.received byte, t)) :
    byte = out s.sent ∧ t.Quiet ∧ t.sent = s.sent + 1 ∧ t.taken = s.taken ++ [s.sent] := by
  have hquiet := readByte_quiet out polls hs (by rw [hread]; exact ReadPath.noConfusion)
  have hspec := readByte_spec out polls s
  rw [hread] at hspec hquiet
  obtain ⟨hsent, -, j, hj, hbyte, htaken⟩ := hspec
  have hown : s.sent = j := by
    rw [pendingWith, hs] at hj
    exact Option.some.inj hj
  exact ⟨hown ▸ hbyte, hquiet, hsent, hown ▸ htaken⟩

/-- From a port that is not quiet a completed read takes the byte of an earlier transmission. -/
theorem readByte_stale {s t : SpiPort} {byte : UInt8} (hs : s.Numbered) (hquiet : ¬s.Quiet)
    (hread : (spi1 out polls).readByte s = (.received byte, t)) : ∃ j, j < s.sent ∧ t.taken = s.taken ++ [j] := by
  have hspec := readByte_spec out polls s
  rw [hread] at hspec
  obtain ⟨-, -, j, hj, -, htaken⟩ := hspec
  refine ⟨j, hs j ?_, htaken⟩
  cases hpending : s.pending with
  | nil => exact absurd hpending hquiet
  | cons i rest =>
      rw [pendingWith, hpending] at hj
      exact Option.some.inj hj ▸ List.mem_cons_self

/-- Reading only ever adds to what has been taken. -/
theorem readByte_taken (s : SpiPort) : s.taken <+: ((spi1 out polls).readByte s).2.taken := by
  have hspec := readByte_spec out polls s
  generalize (spi1 out polls).readByte s = read at hspec ⊢
  obtain ⟨path, t⟩ := read
  cases path with
  | tdbeTimeout => exact hspec.taken_eq ▸ List.prefix_rfl
  | rdbfTimeout => exact hspec.2.1 ▸ List.prefix_rfl
  | received byte =>
      obtain ⟨-, -, j, -, -, htaken⟩ := hspec
      exact ⟨[j], htaken.symm⟩

/-- A frame none of whose reads gave up waiting for RDBF. -/
def NoRdbfTimeout (paths : ReadPath × ReadPath × ReadPath) : Prop :=
  paths.1 ≠ .rdbfTimeout ∧ paths.2.1 ≠ .rdbfTimeout ∧ paths.2.2 ≠ .rdbfTimeout

theorem readFrame_numbered {s : SpiPort} (hs : s.Numbered) : ((spi1 out polls).readFrame s).2.Numbered :=
  readByte_numbered out polls (readByte_numbered out polls (readByte_numbered out polls hs))

theorem readFrame_quiet {s : SpiPort} (hs : s.Quiet) (hframe : NoRdbfTimeout ((spi1 out polls).readFrame s).1) :
    ((spi1 out polls).readFrame s).2.Quiet :=
  readByte_quiet out polls (readByte_quiet out polls (readByte_quiet out polls hs hframe.1) hframe.2.1) hframe.2.2

theorem afterFrames_numbered (n : ℕ) : ((spi1 out polls).afterFrames reset n).Numbered := by
  induction n with
  | zero => exact fun j hj => nomatch hj
  | succ n ih => exact readFrame_numbered out polls ih

theorem afterFrames_quiet (n : ℕ) (hframes : ∀ i < n,
    NoRdbfTimeout ((spi1 out polls).readFrame ((spi1 out polls).afterFrames reset i)).1) :
    ((spi1 out polls).afterFrames reset n).Quiet := by
  induction n with
  | zero => rfl
  | succ n ih => exact readFrame_quiet out polls (ih fun i hi => hframes i (by omega)) (hframes n (by omega))

/-- A frame whose three reads complete takes its own three bytes exactly when it starts quiet. -/
theorem readFrame_own_iff {s t : SpiPort} {b1 b2 b3 : UInt8} (hs : s.Numbered)
    (hframe : (spi1 out polls).readFrame s = ((.received b1, .received b2, .received b3), t)) :
    (t.taken = s.taken ++ [s.sent, s.sent + 1, s.sent + 2] ∧
      (b1, b2, b3) = (out s.sent, out (s.sent + 1), out (s.sent + 2))) ↔ s.Quiet := by
  obtain ⟨s1, hread1⟩ : ∃ s1, (spi1 out polls).readByte s = (.received b1, s1) :=
    ⟨_, Prod.ext (congrArg (fun frame => frame.1.1) hframe) rfl⟩
  obtain ⟨s2, hread2⟩ : ∃ s2, (spi1 out polls).readByte s1 = (.received b2, s2) := by
    refine ⟨_, Prod.ext ?_ rfl⟩
    have h := congrArg (fun frame => frame.1.2.1) hframe
    rwa [show s1 = ((spi1 out polls).readByte s).2 from (congrArg Prod.snd hread1).symm]
  have hread3 : (spi1 out polls).readByte s2 = (.received b3, t) := by
    have hs2 : s2 = ((spi1 out polls).readByte ((spi1 out polls).readByte s).2).2 := by rw [hread1, hread2]
    rw [hs2]
    exact Prod.ext (congrArg (fun frame => frame.1.2.2) hframe)
      (show ((spi1 out polls).readFrame s).2 = t from congrArg Prod.snd hframe)
  constructor
  · rintro ⟨htaken, -⟩
    by_contra hquiet
    obtain ⟨j, hj, hfirst⟩ := readByte_stale out polls hs hquiet hread1
    have h2 := readByte_taken out polls s1
    have h3 := readByte_taken out polls s2
    rw [hread2] at h2
    rw [hread3] at h3
    obtain ⟨rest, hrest⟩ := h2.trans h3
    rw [htaken, hfirst, List.append_assoc, List.append_cancel_left_eq] at hrest
    exact hj.ne (List.cons.inj hrest).1
  · intro hquiet
    obtain ⟨hb1, hquiet1, hsent1, htaken1⟩ := readByte_own out polls hquiet hread1
    obtain ⟨hb2, hquiet2, hsent2, htaken2⟩ := readByte_own out polls hquiet1 hread2
    obtain ⟨hb3, -, -, htaken3⟩ := readByte_own out polls hquiet2 hread3
    rw [hsent1] at hb2 hsent2 htaken2
    rw [hsent2] at hb3 htaken3
    refine ⟨?_, by rw [hb1, hb2, hb3]⟩
    rw [htaken3, htaken2, htaken1, List.append_assoc, List.append_assoc]
    rfl

end Reads

end SpiPort

/-- **Frame alignment.** In every run of frames, a frame whose three reads complete decodes its own
three bytes exactly when no byte of an earlier transmission is on its way or unread at its start; that
is so as long as no earlier read gave up waiting for RDBF. -/
theorem frame_aligned_iff_quiet (out : ℕ → UInt8) (polls : ℕ → SpiPoll) (n : ℕ) :
    let dev := spi1 out polls
    let before := dev.afterFrames .reset n
    let frame := dev.readFrame before
    ((∀ i < n, SpiPort.NoRdbfTimeout (dev.readFrame (dev.afterFrames .reset i)).1) → before.Quiet) ∧
      ∀ b1 b2 b3, frame.1 = (.received b1, .received b2, .received b3) →
        ((frame.2.taken = before.taken ++ [before.sent, before.sent + 1, before.sent + 2] ∧
          (b1, b2, b3) = (out before.sent, out (before.sent + 1), out (before.sent + 2))) ↔ before.Quiet) := by
  intro dev before frame
  refine ⟨SpiPort.afterFrames_quiet out polls n, fun b1 b2 b3 hpaths => ?_⟩
  exact SpiPort.readFrame_own_iff out polls (SpiPort.afterFrames_numbered out polls n) (Prod.ext hpaths rfl)

/-- The first byte arrives after the first read gave up; one frame later all three reads complete, each
with the byte of the transmission before its own. -/
theorem frame_shifted_by_late_byte :
    let out : ℕ → UInt8 := fun j => UInt8.ofNat (j + 1)
    let dev := spi1 out fun i => ⟨if 12 ≤ i ∧ i % 2 = 1 then 1 else 0, true⟩
    let before := dev.afterFrames .reset 1
    (dev.readFrame before).1 = (.received 3, .received 4, .received 5) ∧
      (out before.sent, out (before.sent + 1), out (before.sent + 2)) = (4, 5, 6) := by
  decide

end FocFirmware

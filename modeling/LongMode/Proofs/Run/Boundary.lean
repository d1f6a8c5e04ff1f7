import LongMode.Proofs.Execute.Updates
import LongMode.Proofs.Listing.Decode
import LongMode.Proofs.Run.Iteration
/-!
Listing and executing agree on where an instruction ends. A completed step leaves the instruction
pointer at the end of the line that is listed for it, unless the instruction hands control on; and
a step meets an opcode without an instruction exactly where the line is marked invalid.
-/

namespace LongMode.Machine

variable {s t : Settings} {m : Machine} {l : Located}

/-- Where the instruction at the instruction pointer hands control on to, if it does. -/
def destination? (s : Settings) (m : Machine) : Option UInt64 :=
  match m.locate with
  | .ok l => l.instruction.bind fun i => i.destination? (frameOf s l) { m with ip := l.next }
  | .error _ => none

theorem destination?_of_ok (hl : m.locate = .ok l) : m.destination? s =
    l.instruction.bind fun i => i.destination? (frameOf s l) { m with ip := l.next } := by
  unfold destination?
  rw [hl]

theorem run_lines_of_ok (hs : s.disassemble = true) (hc : m.inCode = true)
    (hl : m.locate = .ok l) : (m.run s true).status.lines = [m.lineFor l] := by
  rw [run_single, if_pos hc, step_listing hl hs]
  rfl

theorem run_lines_of_error {h : Halt} (hl : m.locate = .error h) :
    (m.run s true).status.lines = [] := by
  rw [run_single]
  split_ifs
  · have he := (step_of_error (s := s) hl).1
    have hstop : (m.step s).event.stop ≠ .step := by
      rw [he]
      exact StopReason.ofHalt_ne_step h
    have hlines := (Progress.after_halted hstop {}).1
    simp [Run.status, hlines]
  · rfl

/-- A completed step stands behind an encoding, and there control stays or goes on from there. -/
theorem run_ip_of_completed (ht : t.disassemble = false) (hstop : (m.run t true).stop = .step) :
    ∃ l, m.locate = .ok l ∧ (m.run t true).status.ip =
      if t.noJump then l.next else (m.destination? t).getD l.next := by
  have hc : m.inCode = true := inCode_of_stop (by rw [hstop]; nofun)
  cases hl : m.locate with
  | error h =>
    rw [run_single_stop hc, (step_of_error (s := t) hl).1] at hstop
    exact absurd hstop (StopReason.ofHalt_ne_step h)
  | ok l =>
    refine ⟨l, rfl, ?_⟩
    rw [destination?_of_ok hl]
    change (m.run t true).machine.ip = _
    cases hi : l.instruction with
    | none =>
      rw [run_single_machine hc, step_unknown hl ht hi]
      simp
    | some i =>
      obtain ⟨k, -, hk⟩ := Instruction.execute_updates (execute_of_completed hl ht hi hstop)
      rw [hk]
      cases hj : t.noJump <;> simp [Instruction.nextIp, frameOf, hj]

theorem run_boundary (hs : s.disassemble = true) (ht : t.disassemble = false) (m : Machine) :
    ((m.run t true).stop = .step → ∃ line, (m.run s true).status.lines = [line] ∧
      (m.run t true).status.ip =
        if t.noJump then line.stop else (m.destination? t).getD line.stop) ∧
    ((m.run t true).status.invalidOpcode.isSome ↔
      ∃ line, (m.run s true).status.lines = [line] ∧ line.info.contains .invalid) := by
  constructor
  · intro hstop
    have hc : m.inCode = true := inCode_of_stop (by rw [hstop]; nofun)
    obtain ⟨l, hl, hip⟩ := run_ip_of_completed ht hstop
    refine ⟨m.lineFor l, run_lines_of_ok hs hc hl, ?_⟩
    rw [hip, Listing.lineFor_stop]
  · by_cases hc : m.inCode = true
    · have hu : (m.run t true).status.invalidOpcode = m.unknownOpcode t := by
        rw [← step_invalidOpcode, run_single, if_pos hc]
        rfl
      rw [hu]
      unfold unknownOpcode
      cases hl : m.locate with
      | error h => simp [run_lines_of_error hl]
      | ok l =>
        rw [run_lines_of_ok hs hc hl]
        cases hi : l.instruction <;> simp [ht, hi, lineFor_contains_invalid]
    · have hc : m.inCode = false := by simpa using hc
      rw [run_single_outside hc, run_single_outside hc]
      simp [Run.status]

/-- A conditional jump to itself that is taken. -/
def takenJump : Machine := (ofCode [0x75, 0xFE]).define { zero := some false }

/-- An opcode without an instruction behind a prefix. -/
def prefixedUnknown : Machine := ofCode [0x66, 0x0E]

theorem takenJump_boundary :
    (∃ line, (takenJump.run .listing true).status.lines = [line] ∧ line.stop = 0x1002 ∧
      takenJump.destination? .execute = some 0x1000 ∧
      (takenJump.run .execute true).status.ip = 0x1000) ∧
    ∃ line, (prefixedUnknown.run .listing true).status.lines = [line] ∧ line.stop = 0x1002 ∧
      line.info.contains .invalid = true ∧
      (prefixedUnknown.run .execute true).status.invalidOpcode.isSome = true ∧
      (prefixedUnknown.run .execute true).status.ip = 0x1002 := by
  have hjump : (takenJump.run .listing true).status.lines =
      [⟨0x1000, 2, ["JNZ", "0x1000"], .none⟩] := by rfl
  have hunknown : (prefixedUnknown.run .listing true).status.lines =
      [⟨0x1000, 2, ["BAD INSTRUCTION"], .invalid⟩] := by rfl
  have hd : takenJump.destination? .execute = some 0x1000 := by rfl
  have hn : prefixedUnknown.destination? .execute = none := by rfl
  constructor
  · obtain ⟨hstep, -⟩ := run_boundary (s := .listing) (t := .execute) rfl rfl takenJump
    obtain ⟨line, hlines, hip⟩ := hstep (by rfl)
    rw [hd] at hip
    refine ⟨line, hlines, ?_, hd, hip⟩
    rw [hjump] at hlines
    cases hlines
    rfl
  · obtain ⟨hstep, hinvalid⟩ := run_boundary (s := .listing) (t := .execute) rfl rfl prefixedUnknown
    have hmarked : ∃ line, (prefixedUnknown.run .listing true).status.lines = [line] ∧
        line.info.contains .invalid = true := ⟨_, hunknown, by decide⟩
    obtain ⟨line, hlines, hip⟩ := hstep (by rfl)
    rw [hn] at hip
    rw [hunknown] at hlines
    cases hlines
    exact ⟨_, hunknown, rfl, by decide, hinvalid.2 hmarked, hip⟩

end LongMode.Machine

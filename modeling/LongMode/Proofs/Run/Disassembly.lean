import LongMode.Proofs.Run.Iteration
/-!
Runs that list. A step that lists moves the instruction pointer and leaves everything else alone,
and what it lists is decided without a look at registers and flags. A run is made of such steps, so
the same holds of it, whatever stops it and whether or not it passes over breakpoints.
-/

namespace LongMode.Machine

variable {s : Settings} {m : Machine}

def withData (registers : RegisterFile) (flags : Flags) (m : Machine) : Machine :=
  { m with registers, flags }

theorem step_moves (hs : s.disassemble = true) (m : Machine) :
    ∃ ip, (m.step s).machine = { m with ip } := by
  cases hl : m.locate with
  | error h => exact ⟨m.ip, (step_of_error hl).2⟩
  | ok l => exact ⟨l.next, by rw [step_listing hl hs]⟩

theorem step_withData (hs : s.disassemble = true) (registers : RegisterFile) (flags : Flags)
    (m : Machine) : (m.withData registers flags).step s =
      { m.step s with machine := (m.step s).machine.withData registers flags } := by
  have hsame : (m.withData registers flags).locate = m.locate := rfl
  cases hl : m.locate with
  | error h =>
    unfold step
    rw [hsame, hl]
    rfl
  | ok l =>
    rw [step_listing (hsame.trans hl) hs, step_listing hl hs]
    rfl

theorem runOn_moves (hs : s.disassemble = true) (budget : Nat) (m : Machine) (p : Progress) :
    ∃ ip, (runOn s budget m p).machine = { m with ip } := by
  induction budget generalizing m p with
  | zero => exact ⟨m.ip, rfl⟩
  | succ budget ih =>
    obtain ⟨ip, hip⟩ := step_moves hs m
    rw [runOn_succ]
    split_ifs
    · exact ⟨ip, hip⟩
    · exact ⟨ip, hip⟩
    · exact ⟨ip, hip⟩
    · obtain ⟨ip', hip'⟩ := ih (m.step s).machine (p.after (m.step s))
      refine ⟨ip', ?_⟩
      rw [hip', hip]
    · exact ⟨m.ip, rfl⟩

theorem runOn_withData (hs : s.disassemble = true) (registers : RegisterFile) (flags : Flags)
    (budget : Nat) (m : Machine) (p : Progress) :
    runOn s budget (m.withData registers flags) p =
      { runOn s budget m p with
        machine := (runOn s budget m p).machine.withData registers flags } := by
  induction budget generalizing m p with
  | zero => rfl
  | succ budget ih =>
    -- the tests on the way look at the memory, the instruction pointer and the breakpoints
    have hcode : (m.withData registers flags).inCode = m.inCode := rfl
    have hpause (n : Machine) : (n.withData registers flags).pauses s = n.pauses s := rfl
    rw [runOn_succ, runOn_succ, hcode, step_withData hs]
    dsimp only
    rw [hpause, ih]
    split_ifs <;> rfl

/-- A run that lists leaves the machine as it was but for the instruction pointer, and tells the
same whatever the registers and flags hold. -/
theorem runFor_disassembles (hs : s.disassemble = true) (m : Machine) (budget : Nat) :
    (∃ ip, (m.runFor s budget).machine = { m with ip }) ∧
    ∀ registers flags, ((m.withData registers flags).runFor s budget).status =
      (m.runFor s budget).status := by
  refine ⟨runOn_moves hs _ m {}, ?_⟩
  intro registers flags
  unfold runFor
  rw [runOn_withData hs]
  rfl

/-- `MOV EAX, 1`, `PUSH RAX` with a breakpoint on it, and a jump back. -/
def pushLoop : Machine :=
  (ofCode [0xB8, 0x01, 0x00, 0x00, 0x00, 0x50, 0xEB, 0xF8]).setBreakpoint 0x1005

theorem pushLoop_disassembles :
    (pushLoop.runFor { disassemble := true } 3).status.stop = .breakpoint 0x1005 ∧
    (pushLoop.runFor { disassemble := true } 3).machine = { pushLoop with ip := 0x1005 } ∧
    ((pushLoop.withData .empty .undefined).runFor { disassemble := true } 3).status =
      (pushLoop.runFor { disassemble := true } 3).status := by
  obtain ⟨⟨ip, hm⟩, hdata⟩ :=
    runFor_disassembles (s := { disassemble := true }) rfl pushLoop 3
  have hip : (pushLoop.runFor { disassemble := true } 3).machine.ip = 0x1005 := by rfl
  refine ⟨by rfl, ?_, hdata _ _⟩
  rw [hm] at hip ⊢
  cases hip
  rfl

end LongMode.Machine

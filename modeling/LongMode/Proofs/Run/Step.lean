import LongMode.Run
import LongMode.Proofs.Encoding.Extent
import LongMode.Proofs.Execute.Faults
/-!
One step, and the run that consists of it. A step is halted by the encoding or by the execution, and
by nothing but a fault. Where it halts, the machine is the old one, except after `LEAVE` and
repeated string instructions.
-/

namespace LongMode

def Event.stop : Event → StopReason
  | .halted h => .ofHalt h
  | _ => .step

theorem StopReason.ofHalt_eq_fault {h : Halt} {f : Fault} : ofHalt h = .fault f ↔ h = .fault f := by
  cases h <;> simp [ofHalt]

theorem StopReason.ofHalt_ne_step (h : Halt) : ofHalt h ≠ .step := by
  cases h <;> simp [ofHalt]

theorem Event.stop_eq_fault {e : Event} {f : Fault} :
    e.stop = .fault f ↔ e = .halted (.fault f) := by
  cases e <;> simp [stop, StopReason.ofHalt_eq_fault]

namespace Machine

variable {s : Settings} {m : Machine}

theorem run_single (s : Settings) (m : Machine) : m.run s true =
    if m.inCode then ⟨(m.step s).machine, (m.step s).event.stop, Progress.after {} (m.step s)⟩
    else ⟨m, .endOfCode, {}⟩ := by
  change runOn s 1 m {} = _
  unfold runOn
  by_cases hc : m.inCode = true
  · rw [if_pos hc, if_pos hc]
    dsimp only
    cases (m.step s).event <;> rfl
  · rw [if_neg hc, if_neg hc]

theorem run_single_stop (h : m.inCode = true) : (m.run s true).stop = (m.step s).event.stop := by
  rw [run_single, if_pos h]

theorem run_single_machine (h : m.inCode = true) : (m.run s true).machine = (m.step s).machine := by
  rw [run_single, if_pos h]

theorem run_single_outside (h : m.inCode = false) : m.run s true = ⟨m, .endOfCode, {}⟩ := by
  rw [run_single, if_neg (by simp [h])]

theorem inCode_of_stop (h : (m.run s true).stop ≠ .endOfCode) : m.inCode = true := by
  by_contra hc
  rw [run_single_outside (by simpa using hc)] at h
  exact h rfl

theorem inCode_of_fault {f : Fault} (h : (m.run s true).stop = .fault f) : m.inCode = true :=
  inCode_of_stop (by rw [h]; nofun)

def frameOf (s : Settings) (l : Located) : Frame := ⟨l.start, l.modifiers.addressWidth, !s.noJump⟩

theorem locate_start {l : Located} (h : m.locate = .ok l) : l.start = m.ip :=
  (Located.at?_spans h).start

theorem step_of_error {h : Halt} (hl : m.locate = .error h) :
    (m.step s).event = .halted h ∧ (m.step s).machine = m := by
  unfold step
  rw [hl]
  exact ⟨rfl, rfl⟩

theorem step_listing {l : Located} (hl : m.locate = .ok l) (hd : s.disassemble = true) :
    m.step s = ⟨{ m with ip := l.next }, .listed (m.lineFor l), l.modifiers⟩ := by
  unfold step
  rw [hl]
  simp only [hd, if_true]

theorem step_unknown {l : Located} (hl : m.locate = .ok l) (hd : s.disassemble = false)
    (hi : l.instruction = none) : m.step s =
      ⟨{ m with ip := l.next }, .unknown (.invalidOpcode m.ip l.opcode), l.modifiers⟩ := by
  unfold step
  rw [hl]
  simp only [hd, hi, Bool.false_eq_true, if_false]

theorem step_execute {l : Located} {i : Instruction} (hl : m.locate = .ok l)
    (hd : s.disassemble = false) (hi : l.instruction = some i) : m.step s =
      match i.execute (frameOf s l) { m with ip := l.next } with
      | .done next => ⟨next, .executed, l.modifiers⟩
      | .halted h next => ⟨{ next with ip := m.ip }, .halted h, l.modifiers⟩ := by
  unfold step
  cases hx : i.execute (frameOf s l) { m with ip := l.next } with
  | done next | halted h next =>
    rw [frameOf, locate_start hl] at hx
    simp only [hl, hd, hi, hx, Bool.false_eq_true, if_false]

/-- A completed step has carried out the instruction that stands at the instruction pointer. -/
theorem execute_of_completed {l : Located} {i : Instruction} (hl : m.locate = .ok l)
    (hd : s.disassemble = false) (hi : l.instruction = some i)
    (hstop : (m.run s true).stop = .step) :
    i.execute (frameOf s l) { m with ip := l.next } = .done (m.run s true).machine := by
  have hc : m.inCode = true := inCode_of_stop (by rw [hstop]; nofun)
  rw [run_single_stop hc, step_execute hl hd hi] at hstop
  rw [run_single_machine hc, step_execute hl hd hi]
  cases hx : i.execute (frameOf s l) { m with ip := l.next } with
  | done next => rfl
  | halted h next =>
    rw [hx] at hstop
    exact absurd hstop (StopReason.ofHalt_ne_step h)

theorem run_of_done {l : Located} {i : Instruction} {n : Machine} (hl : m.locate = .ok l)
    (hd : s.disassemble = false) (hi : l.instruction = some i) (hc : m.inCode = true)
    (hx : i.execute (frameOf s l) { m with ip := l.next } = .done n) :
    (m.run s true).stop = .step ∧ (m.run s true).machine = n := by
  rw [run_single_stop hc, run_single_machine hc, step_execute hl hd hi, hx]
  exact ⟨rfl, rfl⟩

theorem run_of_halted {l : Located} {i : Instruction} {h : Halt} {n : Machine}
    (hl : m.locate = .ok l) (hd : s.disassemble = false) (hi : l.instruction = some i)
    (hc : m.inCode = true) (hx : i.execute (frameOf s l) { m with ip := l.next } = .halted h n) :
    (m.run s true).stop = .ofHalt h ∧ (m.run s true).machine = { n with ip := m.ip } := by
  rw [run_single_stop hc, run_single_machine hc, step_execute hl hd hi, hx]
  exact ⟨rfl, rfl⟩

/-- What a halted step came from. -/
theorem step_halted {h : Halt} (he : (m.step s).event = .halted h) :
    (m.locate = .error h ∧ (m.step s).machine = m) ∨
    ∃ l i n, m.locate = .ok l ∧ l.instruction = some i ∧
      i.execute (frameOf s l) { m with ip := l.next } = .halted h n ∧
      (m.step s).machine = { n with ip := m.ip } := by
  cases hl : m.locate with
  | error e =>
    obtain ⟨hev, hm⟩ := step_of_error (s := s) hl
    rw [hev] at he
    cases he
    exact .inl ⟨rfl, hm⟩
  | ok l =>
    right
    cases hd : s.disassemble with
    | true => rw [step_listing hl hd] at he; cases he
    | false =>
      cases hi : l.instruction with
      | none => rw [step_unknown hl hd hi] at he; cases he
      | some i =>
        rw [step_execute hl hd hi] at he ⊢
        cases hx : i.execute (frameOf s l) { m with ip := l.next } with
        | done next => rw [hx] at he; cases he
        | halted e n =>
          rw [hx] at he
          cases he
          exact ⟨l, i, n, rfl, hi, hx, rfl⟩

/-- No guest program makes the engine fail. -/
theorem step_onlyFaults {h : Halt} (he : (m.step s).event = .halted h) : ∃ f, h = .fault f := by
  obtain ⟨hl, -⟩ | ⟨l, i, n, hl, hi, hx, -⟩ := step_halted he
  · obtain ⟨a, f, rfl, -⟩ := Located.at?_error hl
    exact ⟨f, rfl⟩
  · exact Instruction.execute_onlyFaults ((Located.at?_spans hl).wellFormed i hi) hx

end Machine

end LongMode

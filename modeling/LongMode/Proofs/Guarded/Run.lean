import LongMode.Proofs.Guarded.Execute
import LongMode.Proofs.Guarded.Opcodes
import LongMode.Proofs.Run.Disassembly
/-!
The guarded engine, which decodes and executes with guards. It does not crash and runs as the engine
does, whatever program it is given, however it is driven, and as far as it goes. Only for a listing
a condition is needed: the length of a line is the way from the start of the encoding to its end,
and there is none where the end has come round to the low end of the address space.
-/

namespace LongMode

/-- No encoding in the program goes past the end of the address space, so that there is an address
behind each of them. -/
def Memory.Unwrapped (m : Memory) : Prop :=
  ∀ a l, m.inCode a = true → Located.at? m.readByte a = .ok l → a ≤ l.next

namespace Guarded

/-- The line for an encoding, which is as long as the way from its start to its end. -/
def line (m : Machine) (l : Located) : Except Crash Line := do
  forM l.instruction.toList check
  let length ← subtract l.next.toNat l.start.toNat
  return { m.lineFor l with length := UInt64.ofNat length }

def step (s : Settings) (m : Machine) : Except Crash Step := do
  match ← (at? m.memory.readByte m.ip).run with
  | .error (.misuse u) => .error (.misuse u)
  | .error (.fault f) =>
    .ok ⟨m, .halted (.fault f), (Modifiers.leading m.memory.readByte m.ip).1⟩
  | .ok l =>
    let past := { m with ip := l.next }
    if s.disassemble then do
      let line ← line m l
      return ⟨past, .listed line, l.modifiers⟩
    else match l.instruction with
      | none => .ok ⟨past, .unknown (.invalidOpcode m.ip l.opcode), l.modifiers⟩
      | some i => do
        match ← execute i (Machine.frameOf s l) past with
        | .done next => return ⟨next, .executed, l.modifiers⟩
        | .halted h next => return ⟨{ next with ip := m.ip }, .halted h, l.modifiers⟩

def runOn (s : Settings) : Nat → Machine → Progress → Except Crash Run
  | 0, m, p => .ok ⟨m, .step, p⟩
  | budget + 1, m, p =>
    if m.inCode then do
      let one ← step s m
      let q := p.after one
      match one.event with
      | .halted h => return ⟨one.machine, .ofHalt h, q⟩
      | _ =>
        if budget = 0 then return ⟨one.machine, .step, q⟩
        else if !s.noBreak && one.machine.isBreakpoint one.machine.ip then
          return ⟨one.machine, .breakpoint one.machine.ip, q⟩
        else runOn s budget one.machine q
    else .ok ⟨m, .endOfCode, p⟩

def runFor (s : Settings) (budget : Nat) (m : Machine) : Except Crash Run :=
  runOn s (max budget 1) m {}

variable {s : Settings} {m : Machine}

theorem line_eq {l : Located} (hl : m.locate = .ok l) (hle : l.start ≤ l.next) :
    line m l = .ok (m.lineFor l) := by
  have hcheck : forM l.instruction.toList check = .ok () := by
    refine forM_ok fun i hi => ?_
    have hi : l.instruction = some i := Option.mem_toList.1 hi
    exact check_ok ((Located.at?_spans hl).wellFormed i hi) (Located.named_of_at? hl hi)
  have hlength : UInt64.ofNat (l.next.toNat - l.start.toNat) = l.next - l.start := by
    have hsub := UInt64.toNat_sub_of_le _ _ hle
    rw [← hsub, UInt64.ofNat_toNat]
  unfold line
  rw [hcheck, ok_bind, subtract_ok (UInt64.le_iff_toNat_le.1 hle), ok_bind, hlength]
  unfold Machine.lineFor
  cases l.instruction <;> rfl

/-- A step in the program. -/
theorem step_eq (hc : m.inCode = true) (h : s.disassemble = true → m.memory.Unwrapped) :
    step s m = .ok (m.step s) := by
  have hat : (at? m.memory.readByte m.ip).run = .ok m.locate := at?_runs m.memory.readByte m.ip
  unfold step
  rw [hat, ok_bind]
  cases hl : m.locate with
  | error e =>
    obtain ⟨a, f, rfl, -⟩ := Located.at?_error hl
    unfold Machine.step
    rw [hl]
  | ok l =>
    dsimp only
    cases hd : s.disassemble with
    | true =>
      have hle : l.start ≤ l.next := by
        rw [Machine.locate_start hl]
        exact h hd m.ip l hc hl
      rw [if_pos rfl, line_eq hl hle, Machine.step_listing hl hd]
      rfl
    | false =>
      rw [if_neg (by decide)]
      cases hi : l.instruction with
      | none => rw [Machine.step_unknown hl hd hi]
      | some i =>
        have hw : i.WellFormed := (Located.at?_spans hl).wellFormed i hi
        dsimp only
        rw [Machine.step_execute hl hd hi, execute_eq hw (Located.named_of_at? hl hi), ok_bind]
        cases i.execute (Machine.frameOf s l) { m with ip := l.next } <;> rfl

theorem runOn_eq (h : s.disassemble = true → m.memory.Unwrapped) (budget : Nat) (p : Progress) :
    runOn s budget m p = .ok (m.runOn s budget p) := by
  induction budget generalizing m p with
  | zero => rfl
  | succ budget ih =>
    -- a step that lists leaves the memory alone
    have hnext : s.disassemble = true → (m.step s).machine.memory.Unwrapped := by
      intro hd
      obtain ⟨ip, hip⟩ := Machine.step_moves hd m
      rw [hip]
      exact h hd
    unfold runOn Machine.runOn
    by_cases hc : m.inCode = true
    · rw [if_pos hc, if_pos hc, step_eq hc h, ok_bind]
      dsimp only
      cases (m.step s).event with
      | halted e => rfl
      | executed | listed line | unknown f =>
        dsimp only
        rw [ih hnext]
        split_ifs <;> rfl
    · rw [if_neg hc, if_neg hc]

theorem runOn_ne_misuse (budget : Nat) (p : Progress) (u : Misuse) :
    (m.runOn s budget p).stop ≠ .misuse u := by
  induction budget generalizing m p with
  | zero => nofun
  | succ budget ih =>
    have hevent : (m.step s).event.stop ≠ .misuse u := by
      intro hu
      cases he : (m.step s).event with
      | halted e =>
        obtain ⟨f, rfl⟩ := Machine.step_onlyFaults he
        rw [he] at hu
        cases hu
      | executed | listed line | unknown f =>
        rw [he] at hu
        cases hu
    rw [Machine.runOn_succ]
    split_ifs
    · exact hevent
    · nofun
    · nofun
    · exact ih _
    · nofun

/-- No program crashes the engine. Its run does the same without guards, and never ends with a
misuse. -/
theorem runFor_never_crashes (h : s.disassemble = true → m.memory.Unwrapped) (limit : Nat) :
    runFor s limit m = .ok (m.runFor s limit) ∧ ∀ u, (m.runFor s limit).stop ≠ .misuse u :=
  ⟨runOn_eq h _ {}, runOn_ne_misuse _ {}⟩

/-- Two registers are loaded, one is divided by the other, and the quotient is shifted. -/
def shiftedQuotient : Machine :=
  .ofCode [0xB9, 0x03, 0x00, 0x00, 0x00, 0xB8, 0x07, 0x00, 0x00, 0x00, 0xF7, 0xF1, 0xD3, 0xE0]

theorem shiftedQuotient_unwrapped : shiftedQuotient.memory.Unwrapped := by
  have hends : ∀ k < 14, ((Located.at? shiftedQuotient.memory.readByte
      (UInt64.ofNat (0x1000 + k))).toOption.all fun l => UInt64.ofNat (0x1000 + k) ≤ l.next) =
      true := by
    decide +kernel
  have hentry : shiftedQuotient.memory.entry = 0x1000 := by decide +kernel
  have hend : shiftedQuotient.memory.codeEnd = 0x100E := by decide +kernel
  intro a l hc hl
  obtain ⟨hlow, hhigh⟩ := Memory.inCode_iff.1 hc
  rw [hentry, UInt64.le_iff_toNat_le] at hlow
  rw [hend, UInt64.lt_iff_toNat_lt] at hhigh
  change 0x1000 ≤ a.toNat at hlow
  change a.toNat < 0x100E at hhigh
  have hle := hends (a.toNat - 0x1000) (by omega)
  rw [Nat.add_sub_cancel' hlow, UInt64.ofNat_toNat, hl] at hle
  simpa [Except.toOption] using hle

theorem shiftedQuotient_never_crashes :
    runFor .listing 9 shiftedQuotient = .ok (shiftedQuotient.runFor .listing 9) ∧
    (shiftedQuotient.runFor .listing 9).status.lines.length = 4 ∧
    runFor .execute 9 shiftedQuotient = .ok (shiftedQuotient.runFor .execute 9) ∧
    (shiftedQuotient.runFor .execute 9).machine.get (.accumulator .dword) = 16 := by
  obtain ⟨hlisting, -⟩ := runFor_never_crashes (s := .listing) (m := shiftedQuotient)
    (fun _ => shiftedQuotient_unwrapped) 9
  obtain ⟨hexecute, -⟩ := runFor_never_crashes (s := .execute) (m := shiftedQuotient)
    (fun h => absurd h (by decide)) 9
  exact ⟨hlisting, by decide +kernel, hexecute, by decide +kernel⟩

end Guarded

end LongMode

import LongMode.Proofs.Registers
import LongMode.Proofs.Run.Step
/-!
What a fault leaves behind. Decoding changes nothing, and every instruction that is not repeated
does all it can fault on before its first change, but for `LEAVE`: it moves the stack pointer first.
A fault therefore leaves the machine as it was exactly when `LEAVE` had no stack pointer to move.
-/

namespace LongMode.Machine

variable {s : Settings} {m : Machine}

def dropFrame (m : Machine) : Machine := m.set .stackPointer (m.get (.basePointer .qword))

theorem dropFrame_eq_self_iff :
    m.dropFrame = m ↔ m.get .stackPointer = m.get (.basePointer .qword) := by
  constructor
  · intro h
    have h := congrArg (fun n => n.get .stackPointer) h
    exact h.symm.trans (get_set_stackPointer m _)
  · intro h
    unfold dropFrame
    rw [← h, set_get_stackPointer]

def At (m : Machine) (i : Instruction) : Prop := ∃ l, m.locate = .ok l ∧ l.instruction = some i

theorem step_halted_machine {h : Halt} (hr : ∀ i, m.At i → i.repeats = false)
    (he : (m.step s).event = .halted h) :
    (m.step s).machine = m ∧ (∀ w, ¬ m.At (.leave w)) ∨
      (m.step s).machine = m.dropFrame ∧ ∃ w, m.At (.leave w) := by
  obtain ⟨hl, hm⟩ | ⟨l, i, n, hl, hi, hx, hm⟩ := step_halted he
  · left
    refine ⟨hm, ?_⟩
    rintro w ⟨l, hl', -⟩
    rw [hl] at hl'
    cases hl'
  · have hn := Instruction.execute_halted_machine (hr i ⟨l, hl, hi⟩) hx
    by_cases hleave : ∃ w, i = .leave w
    · obtain ⟨w, rfl⟩ := hleave
      right
      refine ⟨?_, w, l, hl, hi⟩
      have hn : n = Machine.dropFrame { m with ip := l.next } :=
        (Outcome.whole_eq_halted.1 hx).2
      rw [hm, hn]
      rfl
    · left
      obtain rfl | ⟨w, hw, -⟩ := hn
      · refine ⟨hm, ?_⟩
        rintro w ⟨l', hl', hi'⟩
        rw [hl] at hl'
        cases hl'
        rw [hi] at hi'
        cases hi'
        exact hleave ⟨w, rfl⟩
      · exact absurd ⟨w, hw⟩ hleave

theorem run_fault_unchanged_iff {f : Fault} (hf : (m.run s true).stop = .fault f)
    (hr : ∀ i, m.At i → i.repeats = false) :
    ((m.run s true).machine = m ↔
      ∀ w, m.At (.leave w) → m.get .stackPointer = m.get (.basePointer .qword)) ∧
    ∀ w, m.At (.leave w) → (m.run s true).machine = m.dropFrame := by
  have hc := inCode_of_fault hf
  have he : (m.step s).event = .halted (.fault f) := by
    rwa [run_single_stop hc, Event.stop_eq_fault] at hf
  rw [run_single_machine hc]
  obtain ⟨hm, hn⟩ | ⟨hm, w, hw⟩ := step_halted_machine hr he
  · exact ⟨⟨fun _ w hw => absurd hw (hn w), fun _ => hm⟩, fun w hw => absurd hw (hn w)⟩
  · rw [hm, dropFrame_eq_self_iff]
    exact ⟨⟨fun h _ _ => h, fun h => h w hw⟩, fun _ _ => rfl⟩

/-- `LEAVE` in strict memory, with a base pointer at which nothing is mapped. -/
def strayFrame : Machine :=
  ((ofCode [0xC9]).setStrict true).set (.basePointer .qword) 0x10

theorem strayFrame_loses_stackPointer :
    (strayFrame.run .execute true).stop = .fault (.unmappedMemory 0x10) ∧
    (∀ i, strayFrame.At i → i.repeats = false) ∧ strayFrame.At (.leave .qword) ∧
    (strayFrame.run .execute true).machine = strayFrame.dropFrame ∧
    (strayFrame.run .execute true).machine ≠ strayFrame := by
  have hf : (strayFrame.run .execute true).stop = .fault (.unmappedMemory 0x10) := by rfl
  have hl : strayFrame.locate = .ok ⟨0x1000, {}, .oneByte, 0xC9, some (.leave .qword), 0x1001⟩ := by
    rfl
  have hat : strayFrame.At (.leave .qword) := ⟨_, hl, rfl⟩
  have hr : ∀ i, strayFrame.At i → i.repeats = false := by
    rintro i ⟨l, hl', hi⟩
    rw [hl] at hl'
    cases hl'
    cases hi
    rfl
  obtain ⟨hiff, hleave⟩ := run_fault_unchanged_iff hf hr
  refine ⟨hf, hr, hat, hleave _ hat, fun h => ?_⟩
  exact absurd (hiff.1 h _ hat) (by decide)

end LongMode.Machine

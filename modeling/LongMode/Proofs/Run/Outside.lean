import LongMode.Proofs.Execute.Outside
import LongMode.Proofs.Run.Step
/-!
Runs of machines that differ in some bytes of memory only. Where one step does the same in both of
them, their callers are told the same about it.
-/

namespace LongMode

/-- The two runs ended alike, in machines that differ in the bytes of `D` and in their instruction
pointers at most. -/
structure Run.SameOutside (D : UInt64 → Prop) (r r' : Run) : Prop where
  stop : r'.stop = r.stop
  lines : r'.progress.lines = r.progress.lines
  executed : r'.progress.executed = r.progress.executed
  invalidOpcode : r'.progress.invalidOpcode = r.progress.invalidOpcode
  machine : r.machine.SameOutside D r'.machine

theorem Run.SameOutside.status {D : UInt64 → Prop} {r r' : Run} (h : r.SameOutside D r')
    (hip : r'.machine.ip = r.machine.ip) : r'.status = r.status := by
  unfold Run.status
  rw [h.stop, h.lines, h.executed, h.invalidOpcode, hip]

structure Step.SameOutside (D : UInt64 → Prop) (one other : Step) : Prop where
  event : other.event = one.event
  machine : one.machine.SameOutside D other.machine

namespace Machine

variable {D : UInt64 → Prop} {s : Settings} {m k : Machine}

/-- What the instruction at the instruction pointer works on has none of the bytes. -/
def KeepsOff (D : UInt64 → Prop) (m : Machine) : Prop :=
  ∀ l i, m.locate = .ok l → l.instruction = some i →
    (∀ e ∈ i.elements { m with ip := l.next }, e.Avoids D) ∧
      ∀ e ∈ i.stackElements { m with ip := l.next }, e.Avoids D

theorem keepsOff_of_locate {l : Located} {i : Instruction} (hl : m.locate = .ok l)
    (hi : l.instruction = some i) (hwords : ∀ e ∈ i.elements { m with ip := l.next }, e.Avoids D)
    (hstack : ∀ e ∈ i.stackElements { m with ip := l.next }, e.Avoids D) : m.KeepsOff D := by
  intro l' i' hl' hi'
  cases hl.symm.trans hl'
  cases hi.symm.trans hi'
  exact ⟨hwords, hstack⟩

theorem SameOutside.inCode_eq (h : m.SameOutside D k) (hip : k.ip = m.ip) :
    k.inCode = m.inCode := by
  unfold Machine.inCode
  rw [hip]
  exact h.inCode m.ip

theorem run_sameOutside (h : m.SameOutside D k) (hip : k.ip = m.ip)
    (hstep : (m.step s).SameOutside D (k.step s)) :
    (m.run s true).SameOutside D (k.run s true) := by
  have hcode := h.inCode_eq hip
  rw [run_single, run_single, hcode]
  split_ifs
  · have hevent := hstep.event
    refine ⟨congrArg Event.stop hevent, ?_, ?_, ?_, hstep.machine⟩ <;>
      · unfold Progress.after
        rw [hevent]
        cases (m.step s).event <;> rfl
  · exact ⟨rfl, rfl, rfl, rfl, h⟩

theorem run_ip_eq (h : m.SameOutside D k) (hip : k.ip = m.ip)
    (hstep : (k.step s).machine.ip = (m.step s).machine.ip) :
    (k.run s true).machine.ip = (m.run s true).machine.ip := by
  rw [run_single, run_single, h.inCode_eq hip]
  split_ifs
  · exact hstep
  · exact hip

theorem step_of_errors {e : Halt} (hl : m.locate = .error e) (hk : k.locate = .error e)
    (h : m.SameOutside D k) (hip : k.ip = m.ip) :
    (m.step s).SameOutside D (k.step s) ∧ (k.step s).machine.ip = (m.step s).machine.ip := by
  obtain ⟨hevent, hmachine⟩ := step_of_error (s := s) hl
  obtain ⟨hevent', hmachine'⟩ := step_of_error (s := s) hk
  refine ⟨⟨hevent'.trans hevent.symm, ?_⟩, ?_⟩ <;> rw [hmachine, hmachine']
  exacts [h, hip]

theorem step_of_execute {l l' : Located} {i i' : Instruction} (hl : m.locate = .ok l)
    (hl' : k.locate = .ok l') (hd : s.disassemble = false) (hi : l.instruction = some i)
    (hi' : l'.instruction = some i') (hip : k.ip = m.ip)
    (hx : (i.execute (frameOf s l) { m with ip := l.next }).SameOutside D
      (i'.execute (frameOf s l') { k with ip := l'.next })) :
    (m.step s).SameOutside D (k.step s) ∧ (k.step s).machine.ip = (m.step s).machine.ip := by
  rw [step_execute hl hd hi, step_execute hl' hd hi']
  generalize i.execute (frameOf s l) { m with ip := l.next } = o at hx ⊢
  generalize i'.execute (frameOf s l') { k with ip := l'.next } = o' at hx ⊢
  cases hx with
  | done h hn => exact ⟨⟨rfl, h⟩, hn⟩
  | halted e h _ => exact ⟨⟨rfl, h.moveTo m.ip k.ip⟩, hip⟩

end Machine

end LongMode

import LongMode.Proofs.Memory
import LongMode.Proofs.Run.Unnoticed
/-!
Strict memory only adds stops. A run in strict memory does what it does in memory that is not strict,
until it reads an unmapped byte; made to go on in memory that is not strict from there, it ends as
the whole run does without strict memory. A repeated string instruction that is cut short is decoded
again, so its own bytes must still be there.
-/

namespace LongMode

/-- A read of an unmapped byte in strict memory. -/
def Halt.IsUnmapped (h : Halt) : Prop := ∃ a, h = .fault (.unmappedMemory a)

namespace Memory

def lenient (m : Memory) : Memory := { m with strict := false }

theorem write_lenient (m : Memory) (a : UInt64) (bytes : List UInt8) :
    m.lenient.write a bytes = (m.write a bytes).lenient := by
  induction bytes generalizing m a with
  | nil => rfl
  | cons b rest ih => exact ih (m.writeByte a b) (a + 1)

theorem readByte_lenient (m : Memory) (a : UInt64) : m.lenient.readByte a = .ok (m.peek a) := rfl

theorem unmapped_of_readByte {m : Memory} {a : UInt64} {f : Fault} (h : m.readByte a = .error f) :
    Halt.IsUnmapped (.fault f) := by
  obtain ⟨-, -, rfl⟩ := readByte_error h
  exact ⟨a, rfl⟩

theorem readByte_extends_lenient (m : Memory) : Fetch.Extends m.readByte m.lenient.readByte := by
  intro a b h
  rw [readByte_lenient, peek_of_readByte h]

end Memory

namespace Machine

variable {s : Settings} {m : Machine} {limit : Nat}

def lenient (m : Machine) : Machine := m.setStrict false

theorem lenient_unnoticed : Unnoticed Halt.IsUnmapped lenient where
  registers _ := rfl
  flags _ := rfl
  ip _ := rfl
  set _ _ _ := rfl
  writeWord m a w v := by
    unfold writeWord Memory.writeWord
    change ({ m with memory := m.memory.lenient.write a _ } : Machine) = _
    rw [Memory.write_lenient]
    rfl
  define _ _ := rfl
  moveTo _ _ := rfl
  readByte m a := by
    cases h : m.memory.readByte a with
    | ok b =>
      have hb := Memory.peek_of_readByte h
      exact .ok hb
    | error f => exact .inr ⟨f, Memory.unmapped_of_readByte h, rfl⟩

theorem lenient_locate (m : Machine) : Carried Halt.IsUnmapped id m.locate m.lenient.locate := by
  cases h : m.locate with
  | ok l =>
    left
    exact Located.at?_extend m.memory.readByte_extends_lenient h
  | error e =>
    obtain ⟨a, f, rfl, hf⟩ := Located.at?_error h
    exact .inr ⟨_, Memory.unmapped_of_readByte hf, rfl⟩

/-- If a string instruction stands at the instruction pointer and repeats, the step leaves the bytes
of its encoding as they are. -/
def KeepsEncoding (s : Settings) (m : Machine) : Prop :=
  ∀ l i, m.locate = .ok l → l.instruction = some i → i.repeats = true →
    ∀ k < l.size m.memory.readByte, (m.run s true).machine.memory.peek (m.ip + UInt64.ofNat k) =
      m.memory.peek (m.ip + UInt64.ofNat k)

/-- What a fault leaves behind is decoded as before. -/
theorem locate_after_fault {h : Halt} (hc : m.inCode = true) (hk : m.KeepsEncoding s)
    (he : (m.step s).event = .halted h) :
    (m.step s).machine.lenient.locate = m.lenient.locate := by
  obtain ⟨-, hm⟩ | ⟨l, i, n, hl, hi, hx, hm⟩ := step_halted he
  · rw [hm]
  · rw [hm]
    by_cases hr : i.repeats = false
    · obtain rfl | ⟨w, -, rfl⟩ := Instruction.execute_halted_machine hr hx
      · rfl
      · rfl
    · have hlenient : m.lenient.locate = .ok l := (lenient_locate m).of_ok hl
      have hspans := Located.at?_spans hlenient
      have hsize := Located.size_extend m.memory.readByte_extends_lenient hl
      rw [hlenient]
      refine hspans.congr _ fun k hk' => ?_
      have hbytes := hk l i hl hi (by simpa using hr) k (by rw [hi] at hk'; exact hsize ▸ hk')
      rw [run_single_machine hc, hm] at hbytes
      exact congrArg Except.ok hbytes

theorem Updates.inCode {n : Machine} (h : m.Updates n) (a : UInt64) :
    n.memory.inCode a = m.memory.inCode a := by
  induction h with
  | refl => rfl
  | set _ _ _ ih | define _ _ ih => exact ih
  | @writeWord n _ b w v ih => exact (Memory.inCode_write n.memory b a _).trans ih

/-- A halted step leaves the instruction pointer in the program. -/
theorem inCode_of_halted {h : Halt} (he : (m.step s).event = .halted h) :
    (m.step s).machine.inCode = m.inCode := by
  obtain ⟨-, hm⟩ | ⟨l, i, n, -, -, hx, hm⟩ := step_halted he
  · rw [hm]
  · rw [hm]
    exact (Instruction.execute_halted_updates hx).inCode m.ip

/-- One step with and without strict memory. -/
theorem run_lenient (s : Settings) (m : Machine) :
    ((m.lenient.run s true).machine = (m.run s true).machine.lenient ∧
      (m.lenient.run s true).status = (m.run s true).status) ∨
    ∃ a, (m.run s true).stop = .fault (.unmappedMemory a) := by
  by_cases hc : m.inCode = true
  · have hc' : m.lenient.inCode = true := hc
    obtain ⟨hm, he⟩ | ⟨-, ⟨a, rfl⟩, he⟩ :=
      step_unnoticed (s := s) lenient_unnoticed (lenient_locate m) fun _ _ => rfl
    · left
      rw [run_single, run_single, if_pos hc, if_pos hc']
      refine ⟨hm, ?_⟩
      unfold Run.status Progress.after
      rw [he, hm]
      cases (m.step s).event <;> rfl
    · right
      exact ⟨a, (run_single_stop hc).trans (congrArg Event.stop he)⟩
  · have hc : m.inCode = false := by simpa using hc
    have hc' : m.lenient.inCode = false := hc
    rw [run_single_outside hc, run_single_outside hc']
    exact .inl ⟨rfl, rfl⟩

/-- The run that goes on from a fault is the run without strict memory from before the fault. -/
theorem runFor_after_fault {f : Fault} (hf : (m.run s true).stop = .fault f)
    (hk : m.KeepsEncoding s) (limit : Nat) :
    (m.run s true).machine.lenient.runFor s limit = m.lenient.runFor s limit := by
  have hc := inCode_of_fault hf
  have he : (m.step s).event = .halted (.fault f) := by
    rwa [run_single_stop hc, Event.stop_eq_fault] at hf
  have hstep : (m.step s).machine.lenient.step s = m.lenient.step s :=
    step_again lenient_unnoticed (lenient_locate m) he (locate_after_fault hc hk he)
  have hc' : (m.step s).machine.lenient.inCode = m.lenient.inCode := inCode_of_halted he
  obtain ⟨budget, hb⟩ : ∃ budget, max limit 1 = budget + 1 := ⟨max limit 1 - 1, by omega⟩
  rw [run_single_machine hc]
  unfold runFor
  have hcode : m.lenient.inCode = true := hc
  rw [hb, runOn_succ, runOn_succ, hstep, hc', if_pos hcode, if_pos hcode]

/-- A step that faults has nothing to report but the fault. -/
theorem status_of_fault {f : Fault} (hf : (m.run s true).stop = .fault f) (t : Status) :
    (m.run s true).status.executed = 0 ∧ (m.run s true).status.followedBy t = t := by
  rw [run_fault_status hf]
  simp [Status.followedBy]

/-- The run from `m` with strict memory, and the run that goes on from its end without, against the
whole run without. -/
structure Resumes (s : Settings) (m : Machine) (limit : Nat) : Prop where
  faulted : (∃ a, (m.runFor s limit).stop = .fault (.unmappedMemory a)) →
    (m.after s (m.runFor s limit).status.executed).KeepsEncoding s →
    ((m.runFor s limit).machine.lenient.runFor s
      (limit - (m.runFor s limit).status.executed)).machine = (m.lenient.runFor s limit).machine ∧
    (m.runFor s limit).status.followedBy ((m.runFor s limit).machine.lenient.runFor s
      (limit - (m.runFor s limit).status.executed)).status = (m.lenient.runFor s limit).status
  undisturbed : (¬ ∃ a, (m.runFor s limit).stop = .fault (.unmappedMemory a)) →
    (m.lenient.runFor s limit).machine = (m.runFor s limit).machine.lenient ∧
    (m.lenient.runFor s limit).status = (m.runFor s limit).status

/-- A run that is over after its first step. -/
theorem Resumes.of_single (h : m.runFor s limit = m.run s true)
    (h' : (m.lenient.run s true).stop = (m.run s true).stop →
      m.lenient.runFor s limit = m.lenient.run s true) : Resumes s m limit where
  faulted := by
    rintro ⟨a, ha⟩ hk
    rw [h] at ha hk ⊢
    obtain ⟨hzero, hstatus⟩ := status_of_fault ha (m.lenient.runFor s limit).status
    rw [hzero] at hk ⊢
    rw [Nat.sub_zero, runFor_after_fault ha hk limit]
    exact ⟨rfl, hstatus⟩
  undisturbed hn := by
    rw [h] at hn ⊢
    obtain ⟨hm, hs⟩ := (run_lenient s m).resolve_right hn
    rw [h' (congrArg Status.stop hs)]
    exact ⟨hm, hs⟩

/-- A first step that completes does so without strict memory, and leaves the rest of the run. -/
theorem Resumes.of_completed (hl : 1 ≤ limit) (hstep : (m.run s true).stop = .step)
    (hrest : Resumes s (m.run s true).machine limit) : Resumes s m (limit + 1) := by
  obtain ⟨hm, hs⟩ := (run_lenient s m).resolve_right (by rw [hstep]; nofun)
  have hstep' : (m.lenient.run s true).stop = .step := (congrArg Status.stop hs).trans hstep
  have hone := executed_of_completed hstep
  have hafter (k : Nat) : m.after s (1 + k) = (m.run s true).machine.after s k := by
    rw [Nat.add_comm, after_succ]
  have hstrict := runFor_completed hl hstep
  have hlenient := runFor_completed hl hstep'
  rw [hm, hs] at hlenient
  change (m.run s true).machine.pauses s = true ∧ _ ∨ (m.run s true).machine.pauses s = false ∧ _
    at hlenient
  obtain ⟨hp, hmachine, hstatus⟩ | ⟨hp, hmachine, hstatus⟩ := hstrict
  · obtain ⟨-, hmachine', hstatus'⟩ := hlenient.resolve_right fun h => by rw [hp] at h; cases h.1
    have hstop : (m.runFor s (limit + 1)).stop = _ := congrArg Status.stop hstatus
    constructor
    · rintro ⟨a, ha⟩
      cases hstop.symm.trans ha
    · intro _
      rw [hmachine, hmachine', hstatus, hstatus']
      exact ⟨rfl, rfl⟩
  · obtain ⟨-, hmachine', hstatus'⟩ := hlenient.resolve_left fun h => by rw [hp] at h; cases h.1
    have hstop : (m.runFor s (limit + 1)).stop = _ := congrArg Status.stop hstatus
    have hexecuted : (m.runFor s (limit + 1)).status.executed =
        1 + ((m.run s true).machine.runFor s limit).status.executed := by
      rw [hstatus, ← hone]
      rfl
    constructor
    · intro hf hk
      rw [hstop] at hf
      rw [hexecuted, hafter] at hk
      obtain ⟨hrest, hjoined⟩ := hrest.faulted hf hk
      have hleft (k : Nat) : limit + 1 - (1 + k) = limit - k := by omega
      rw [hexecuted, hleft, hmachine, hmachine', hstatus, hstatus', Status.followedBy_assoc, hjoined]
      exact ⟨hrest, rfl⟩
    · intro hn
      rw [hstop] at hn
      obtain ⟨hrest, hjoined⟩ := hrest.undisturbed hn
      rw [hmachine, hmachine', hstatus, hstatus', hjoined]
      exact ⟨hrest, rfl⟩

/-- Strict memory only adds stops, from which a run can be resumed. -/
theorem runFor_resumes (s : Settings) (m : Machine) (limit : Nat) : Resumes s m limit := by
  induction limit generalizing m with
  | zero => exact .of_single rfl fun _ => rfl
  | succ limit ih =>
    by_cases hstep : (m.run s true).stop = .step
    · rcases Nat.eq_zero_or_pos limit with rfl | hl
      · exact .of_single rfl fun _ => rfl
      · exact .of_completed hl hstep (ih _)
    · exact .of_single (runFor_halted hstep) fun h => runFor_halted (by rwa [h])

/-- A repeated byte move of four elements in strict memory, with the last two of them unmapped. -/
def cutShort : Machine :=
  ((((ofCode [0xF3, 0xA4]).setStrict true).set (.sourceIndex .qword) 0x7F_FFFE).set
    (.destinationIndex .qword) 0x50_0000).set (.counter .qword) 4

theorem cutShort_resumes :
    (cutShort.runFor .execute 3).status =
      ⟨[], 0x1000, .fault (.unmappedMemory 0x80_0000), 0, none⟩ ∧
    (cutShort.runFor .execute 3).machine.get (.counter .qword) = 2 ∧
    ((cutShort.runFor .execute 3).machine.lenient.runFor .execute 3).machine =
      (cutShort.lenient.runFor .execute 3).machine ∧
    (cutShort.lenient.runFor .execute 3).status = ⟨[], 0x1002, .endOfCode, 1, none⟩ := by
  have hstatus : (cutShort.runFor .execute 3).status =
      ⟨[], 0x1000, .fault (.unmappedMemory 0x80_0000), 0, none⟩ := by rfl
  have hl : cutShort.locate = .ok ⟨0x1000, { repetition := some .whileEqual }, .oneByte, 0xA4,
      some (.string ⟨.move, .byte, .qword, some .whileEqual, none⟩), 0x1002⟩ := by rfl
  have hk : cutShort.KeepsEncoding .execute := by
    intro l i hl' _ _ k hk
    rw [hl] at hl'
    cases hl'
    obtain rfl | rfl : k = 0 ∨ k = 1 := Nat.le_one_iff_eq_zero_or_eq_one.1 (Nat.lt_succ_iff.1 hk)
    · rfl
    · rfl
  obtain ⟨hmachine, -⟩ := (runFor_resumes .execute cutShort 3).faulted ⟨_, by rfl⟩ hk
  exact ⟨hstatus, by rfl, hmachine, by rfl⟩

end Machine

end LongMode

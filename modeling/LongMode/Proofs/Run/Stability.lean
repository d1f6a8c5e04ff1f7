import LongMode.Proofs.Run.Strict
/-!
Faults are stable. A run that a fault has ended, begun anew from what it left, ends at once in the
same fault and leaves the same. What is begun anew is the last step of the run: its instruction is
still there to be decoded, for a byte that could be read can be read again after every update, and
carried out again it halts as before.
-/

namespace LongMode.Machine

variable {s : Settings} {m n : Machine} {f : Fault} {limit : Nat}

theorem id_unnoticed : Unnoticed (fun _ => False) id where
  registers _ := rfl
  flags _ := rfl
  ip _ := rfl
  set _ _ _ := rfl
  writeWord _ _ _ _ := rfl
  define _ _ := rfl
  moveTo _ _ := rfl
  readByte _ _ := .same rfl

/-- Nothing that an instruction does makes a byte unreadable. -/
theorem Updates.readByte (h : m.Updates n) {a : UInt64} {b : UInt8}
    (hb : m.memory.readByte a = .ok b) : n.memory.readByte a = .ok (n.memory.peek a) := by
  have hread : ∃ c, n.memory.readByte a = .ok c := by
    induction h with
    | refl => exact ⟨b, hb⟩
    | set _ _ _ ih | define _ _ ih => exact ih
    | @writeWord n _ dst w v ih =>
      obtain ⟨c, hc⟩ := ih
      have hlen : (LittleEndian.ofWord w.wordBytes v).length ≤ 2 ^ 64 := by
        have hw := Memory.wordBytes_le w
        rw [LittleEndian.length_ofWord]
        omega
      have hwrite := Memory.readByte_write n.memory dst a _ hlen
      rw [hc] at hwrite
      cases hbyte : (LittleEndian.ofWord w.wordBytes v)[(a - dst).toNat]? with
      | none => exact ⟨c, by rw [hbyte] at hwrite; exact hwrite⟩
      | some x => exact ⟨x, by rw [hbyte] at hwrite; exact hwrite⟩
  obtain ⟨c, hc⟩ := hread
  rw [hc, Memory.peek_of_readByte hc]

/-- In the memory that a fault leaves behind, strict or not, the same is decoded as before. -/
theorem locate_of_halted {h : Halt} (hc : m.inCode = true) (hk : m.KeepsEncoding s)
    (he : (m.step s).event = .halted h) : (m.step s).machine.locate = m.locate := by
  obtain ⟨-, hm⟩ | ⟨l, i, n, hl, hi, hx, hm⟩ := step_halted he
  · rw [hm]
  · by_cases hr : i.repeats = false
    · rw [hm]
      obtain rfl | ⟨w, -, rfl⟩ := Instruction.execute_halted_machine hr hx
      · rfl
      · rfl
    · have hspans := Located.at?_spans hl
      have hupdates := Instruction.execute_halted_updates hx
      rw [hl, hm]
      refine hspans.congr _ fun k hk' => ?_
      rw [hi] at hk'
      obtain ⟨b, hb⟩ := hspans.readable k hk'
      have hbyte := hk l i hl hi (by simpa using hr) k hk'
      rw [run_single_machine hc, hm, Memory.peek_of_readByte hb] at hbyte
      rw [hb, ← hbyte]
      exact hupdates.readByte hb

/-- The step that faulted, done again from what it left. -/
theorem run_again (hf : (m.run s true).stop = .fault f) (hk : m.KeepsEncoding s) :
    (m.run s true).machine.run s true = m.run s true := by
  have hc := inCode_of_fault hf
  have he : (m.step s).event = .halted (.fault f) := by
    rwa [run_single_stop hc, Event.stop_eq_fault] at hf
  have hstep : (id (m.step s).machine).step s = (id m).step s :=
    step_again id_unnoticed (.same rfl) he (locate_of_halted hc hk he)
  rw [id, id] at hstep
  have hc' : (m.step s).machine.inCode = true := (inCode_of_halted he).trans hc
  rw [run_single_machine hc, run_single, run_single, if_pos hc, if_pos hc', hstep]

theorem runFor_fault_stable (hf : (m.runFor s limit).stop = .fault f)
    (hk : (m.after s (m.runFor s limit).status.executed).KeepsEncoding s) (again : Nat) :
    ((m.runFor s limit).machine.runFor s again).machine = (m.runFor s limit).machine ∧
    ((m.runFor s limit).machine.runFor s again).status =
      ⟨[], (m.runFor s limit).machine.ip, .fault f, 0, none⟩ := by
  obtain ⟨k, hfollows, hends⟩ := runOn_iterates s (max limit 1) (by omega) m {}
  change Ends s _ k _ (m.runFor s limit).stop (m.runFor s limit).machine at hends
  have hexecuted : (m.runFor s limit).status.executed = k :=
    hfollows.executed.trans (Nat.zero_add k)
  rw [hexecuted] at hk
  rw [hf] at hends
  obtain ⟨hlast, hmachine⟩ := hends.of_fault
  -- the last step of the run is all that is left to look at
  have hsame := run_again hlast hk
  have hagain : (m.runFor s limit).machine.runFor s again = (m.after s k).run s true := by
    rw [hmachine, runFor_halted (by rw [hsame, hlast]; nofun), hsame]
  rw [hagain, hmachine, run_fault_ip hlast]
  exact ⟨rfl, run_fault_status hlast⟩

/-- `CLD`, and a repeated byte move of four elements, the last two of which are not mapped. -/
def runsDry : Machine :=
  ((((ofCode [0xFC, 0xF3, 0xA4]).setStrict true).set (.sourceIndex .qword) 0x7F_FFFE).set
    (.destinationIndex .qword) 0x50_0000).set (.counter .qword) 4

theorem runsDry_stable :
    (runsDry.runFor .execute 9).status =
      ⟨[], 0x1001, .fault (.unmappedMemory 0x80_0000), 1, none⟩ ∧
    (runsDry.runFor .execute 9).machine.get (.counter .qword) = 2 ∧
    ((runsDry.runFor .execute 9).machine.runFor .execute 5).machine =
      (runsDry.runFor .execute 9).machine ∧
    ((runsDry.runFor .execute 9).machine.runFor .execute 5).status =
      ⟨[], 0x1001, .fault (.unmappedMemory 0x80_0000), 0, none⟩ := by
  have hstop : (runsDry.runFor .execute 9).stop = .fault (.unmappedMemory 0x80_0000) := by rfl
  have hl : (runsDry.after .execute 1).locate = .ok ⟨0x1001, { repetition := some .whileEqual },
      .oneByte, 0xA4, some (.string ⟨.move, .byte, .qword, some .whileEqual, none⟩), 0x1003⟩ := by
    rfl
  have hk : (runsDry.after .execute 1).KeepsEncoding .execute := by
    intro l i hl' _ _ k hk
    rw [hl] at hl'
    cases hl'
    obtain rfl | rfl : k = 0 ∨ k = 1 := Nat.le_one_iff_eq_zero_or_eq_one.1 (Nat.lt_succ_iff.1 hk)
    · rfl
    · rfl
  obtain ⟨hmachine, hstatus⟩ := runFor_fault_stable hstop hk 5
  exact ⟨by rfl, by rfl, hmachine, hstatus⟩

end LongMode.Machine

import LongMode.Proofs.Encoding.Addressing
import LongMode.Proofs.Encoding.Operands
import LongMode.Proofs.Encoding.Pointer
import LongMode.Proofs.Execute.Pair
import LongMode.Proofs.Execute.Stack
import LongMode.Proofs.Run.Step
/-!
The instructions that work on the stack. An operand is read before the stack pointer moves for a
push, and a place in memory is worked out after it has moved for a pop; a return takes back what the
call put there.
-/

namespace LongMode

theorem Register.fetch_stackPointer_part {w : Width} (hw : w ≠ .byte) (rex : Bool)
    (f : RegisterFile) :
    (⟨.general, 4, w, rex⟩ : Register).fetch f = Register.stackPointer.fetch f &&& w.mask := by
  have hall (v : UInt64) : v &&& 0xFFFF_FFFF_FFFF_FFFF = v := UInt64.and_neg_one
  have hlow : (⟨.general, 4, w, rex⟩ : Register).isHighByte = false := by simp [isHighByte, hw]
  rw [stackPointer, fetch_general]
  unfold fetch
  rw [hlow]
  simp [RegisterFile.readGeneral, Width.mask, hall]

namespace Machine

variable {s : Settings} {m n popped : Machine} {l : Located} {i : Instruction}
  {source target : Operand} {p : Pointer} {v d : UInt64} {release : UInt16}

/-- The step carries out an instruction and leaves the machine `n`. -/
def StepsTo (s : Settings) (m n : Machine) : Prop :=
  (m.step s).event = .executed ∧ (m.step s).machine = n

theorem stepsTo_of_done (hd : s.disassemble = false) (hl : m.locate = .ok l)
    (hi : l.instruction = some i)
    (hx : i.execute (frameOf s l) { m with ip := l.next } = .done n) : m.StepsTo s n := by
  unfold StepsTo
  rw [step_execute hl hd hi, hx]
  exact ⟨rfl, rfl⟩

theorem stepsTo_of_ok {r : Except Halt Machine} (hd : s.disassemble = false) (hl : m.locate = .ok l)
    (hi : l.instruction = some i) (hx : i.execute (frameOf s l) { m with ip := l.next } =
      .whole { m with ip := l.next } r) (hr : r = .ok n) : m.StepsTo s n :=
  stepsTo_of_done hd hl hi (hx.trans (congrArg _ hr))

theorem stepsTo_push (hd : s.disassemble = false) (hl : m.locate = .ok l)
    (hi : l.instruction = some (.push source)) (hv : source.read { m with ip := l.next } = .ok v) :
    m.StepsTo s (({ m with ip := l.next } : Machine).push source.width v) := by
  refine stepsTo_of_ok hd hl hi rfl ?_
  unfold Execute.push
  rw [Execute.read_of_ok hv]
  rfl

theorem stepsTo_pop (hd : s.disassemble = false) (hl : m.locate = .ok l)
    (hi : l.instruction = some (.pop target))
    (hpop : ({ m with ip := l.next } : Machine).pop target.width = .ok (v, popped))
    (hn : target.write popped v = .ok n) : m.StepsTo s n := by
  refine stepsTo_of_ok hd hl hi rfl ?_
  unfold Execute.pop
  rw [hpop, orFault_ok, ok_bind]
  unfold Execute.write
  dsimp only
  rw [hn]
  rfl

/-- A pop moves the stack pointer up by the width, and what it finds has that width. -/
theorem pop_eq_ok {w : Width} (h : m.pop w = .ok (v, popped)) : v.toNat < w.modulus ∧
    popped = m.set .stackPointer (m.get .stackPointer + UInt64.ofNat w.bytes) := by
  obtain ⟨u, hu, h⟩ := ok_of_bind h
  cases h
  exact ⟨Memory.readWord_lt hu, rfl⟩

def called (m : Machine) (back target : UInt64) : Machine :=
  { m.push .qword back with ip := target }

/-- The machine behind the call again. All that is left is the word that has been pushed. -/
def returned (m : Machine) (back : UInt64) : Machine :=
  { m.writeWord (m.belowTop .qword).address .qword back with ip := back }

theorem stepsTo_call (hd : s.disassemble = false) (hj : s.noJump = false) (hl : m.locate = .ok l)
    (hi : l.instruction = some (.call target)) (hv : target.read { m with ip := l.next } = .ok d) :
    m.StepsTo s (m.called l.next d) := by
  refine stepsTo_of_ok hd hl hi rfl ?_
  unfold Execute.call Execute.jump frameOf
  rw [Execute.read_of_ok hv, hj]
  rfl

theorem stepsTo_ret (hd : s.disassemble = false) (hj : s.noJump = false) (hl : m.locate = .ok l)
    (hi : l.instruction = some (.ret release))
    (hpop : ({ m with ip := l.next } : Machine).pop .qword = .ok (d, popped)) :
    m.StepsTo s (({ popped with ip := d } : Machine).set .stackPointer
      (popped.get .stackPointer + release.toUInt64)) := by
  refine stepsTo_of_ok hd hl hi rfl ?_
  unfold Execute.ret Execute.jump frameOf
  rw [hpop, hj]
  rfl

/-- The word on top of the stack after a push. -/
theorem readWord_push (m : Machine) (w : Width) (v : UInt64) :
    (m.push w v).readWord ((m.push w v).get .stackPointer) w = .ok (v &&& w.mask) := by
  rw [get_push_stackPointer]
  exact Memory.readWord_writeWord m.memory (m.belowTop w).address w v

/-- An address that counts from the stack pointer moves with it. -/
theorem resolve_set_stackPointer (h : p.Encodable)
    (hbase : p.base = some (.general 4 p.addressWidth)) (m : Machine) (k : UInt64) :
    p.resolve (m.set .stackPointer (m.get .stackPointer + k)) =
      (p.resolve m + k) &&& p.addressWidth.mask := by
  have hpart (n : Machine) :
      n.get (.general 4 p.addressWidth) = n.get .stackPointer &&& p.addressWidth.mask :=
    Register.fetch_stackPointer_part (by obtain hw | hw := h.addressWidth <;> simp [hw]) true _
  have hindex (u : UInt64) :
      (p.index.map fun r => (m.set .stackPointer u).get r * p.scale.toUInt64) =
        p.index.map fun r => m.get r * p.scale.toUInt64 := by
    cases hp : p.index with
    | none => rfl
    | some r =>
      obtain ⟨code, hcode, rfl⟩ := h.index r hp
      exact congrArg (fun u => some (u * p.scale.toUInt64)) (get_set_general_ne hcode m _ _ u)
  obtain ⟨rest, hrest⟩ : ∃ rest, ∀ u, p.sum (m.set .stackPointer u) =
      (m.set .stackPointer u).get (.general 4 p.addressWidth) + rest := by
    refine ⟨p.displacement.toUInt64 + (if p.ipRelative then m.ip else 0) +
      (p.index.map fun r => m.get r * p.scale.toUInt64).getD 0, fun u => ?_⟩
    unfold Pointer.sum
    rw [hindex, hbase, Option.map_some, Option.getD_some]
    change _ + (if p.ipRelative then m.ip else 0) + _ + _ = _
    ac_rfl
  -- the base is cut off by itself and once more with the whole sum
  have hresolve (u : UInt64) :
      p.resolve (m.set .stackPointer u) = (u + rest) &&& p.addressWidth.mask := by
    rw [Pointer.resolve_eq, hrest, hpart, get_set_stackPointer, Width.add_and_mask]
  calc p.resolve (m.set .stackPointer (m.get .stackPointer + k))
      = (m.get .stackPointer + rest + k) &&& p.addressWidth.mask := by
        rw [hresolve, UInt64.add_assoc, UInt64.add_comm k, ← UInt64.add_assoc]
    _ = (p.resolve (m.set .stackPointer (m.get .stackPointer)) + k) &&& p.addressWidth.mask := by
        rw [hresolve, Width.add_and_mask]
    _ = (p.resolve m + k) &&& p.addressWidth.mask := by rw [set_get_stackPointer]

/-- In memory that is not strict there is something to read for every operand and every pop. -/
theorem exists_read_of_lenient (h : m.memory.strict = false) :
    (∀ o : Operand, ∃ v, o.read m = .ok v) ∧ ∀ w, ∃ r, m.pop w = .ok r := by
  refine ⟨fun o => ?_, fun w => ?_⟩
  · cases o with
    | register r | immediate i => exact ⟨_, rfl⟩
    | memory p => exact ⟨_, Memory.readWord_of_lenient h _ _⟩
  · unfold pop readWord
    dsimp only
    rw [Memory.readWord_of_lenient h]
    exact ⟨_, rfl⟩

/-- A return at the target of a call takes back the word that the call has pushed. -/
theorem stepsTo_ret_of_call (hd : s.disassemble = false) (hj : s.noJump = false)
    (hl : (m.called v d).locate = .ok l) (hi : l.instruction = some (.ret release)) :
    (m.called v d).StepsTo s ((m.returned v).set .stackPointer
      (m.get .stackPointer + release.toUInt64)) := by
  have hsame : (m.push .qword v).SameOutside (fun _ => False)
      { m.called v d with ip := l.next } := (SameOutside.refl (m.push .qword v)).moveTo m.ip _
  have hpop := pop_of_push hsame fun _ h => h.elim
  have hmask : v &&& Width.qword.mask = v := UInt64.and_neg_one
  rw [hmask] at hpop
  have hret := stepsTo_ret hd hj hl hi hpop
  exact hret

/-- A return that does not raise the stack pointer leaves it where it was before the call. -/
theorem set_returned_nothing (m : Machine) (v : UInt64) :
    (m.returned v).set .stackPointer (m.get .stackPointer + (0 : UInt16).toUInt64) =
      m.returned v := by
  rw [show m.get .stackPointer + (0 : UInt16).toUInt64 = (m.returned v).get .stackPointer from
    UInt64.add_zero _, set_get_stackPointer]

/-- What the step does if there is an instruction on the stack at this encoding. -/
structure StackStep (s : Settings) (m : Machine) (l : Located) : Prop where
  /-- A return at the target of a call leads behind the call. -/
  call : ∀ target d, s.noJump = false → l.instruction = some (.call target) →
    target.read { m with ip := l.next } = .ok d → m.StepsTo s (m.called l.next d) ∧
      ∀ r, (m.called l.next d).locate = .ok r →
        (r.instruction = some (.ret 0) → (m.called l.next d).StepsTo s (m.returned l.next)) ∧
        ∀ release, r.instruction = some (.ret release) → (m.called l.next d).StepsTo s
          ((m.returned l.next).set .stackPointer (m.get .stackPointer + release.toUInt64))
  /-- The operand of a push is read before the stack pointer moves. -/
  push : ∀ source v, l.instruction = some (.push source) →
    source.read { m with ip := l.next } = .ok v →
    let pushed := ({ m with ip := l.next } : Machine).push source.width v
    m.StepsTo s pushed ∧ pushed.readWord (pushed.get .stackPointer) source.width =
      .ok (v &&& source.width.mask)
  /-- So the stack pointer itself is pushed as it was. -/
  pushPointer : ∀ w rex, w ≠ .byte →
    l.instruction = some (.push (.register ⟨.general, 4, w, rex⟩)) →
    let old := m.get .stackPointer
    let pushed := ({ m with ip := l.next } : Machine).push w (old &&& w.mask)
    m.StepsTo s pushed ∧ pushed.get .stackPointer = old - UInt64.ofNat w.bytes ∧
      pushed.readWord (pushed.get .stackPointer) w = .ok (old &&& w.mask)
  /-- The place of a pop into memory is worked out after the stack pointer has moved. -/
  pop : ∀ p v popped, l.instruction = some (.pop (.memory p)) →
    ({ m with ip := l.next } : Machine).pop p.width = .ok (v, popped) →
    m.StepsTo s (popped.writeWord (p.resolve popped) p.width v) ∧
      popped = ({ m with ip := l.next } : Machine).set .stackPointer
        (m.get .stackPointer + UInt64.ofNat p.width.bytes) ∧
      (p.base = some (.general 4 p.addressWidth) → p.resolve popped =
        (p.resolve { m with ip := l.next } + UInt64.ofNat p.width.bytes) &&& p.addressWidth.mask)
  /-- A pop into a register leaves the value there; the stack pointer has moved before, so that the
  value stays even if it is the stack pointer that is popped. -/
  popRegister : ∀ r v popped, l.instruction = some (.pop (.register r)) →
    ({ m with ip := l.next } : Machine).pop r.width = .ok (v, popped) →
    m.StepsTo s (popped.set r v) ∧ (popped.set r v).get r = v ∧
      popped = ({ m with ip := l.next } : Machine).set .stackPointer
        (m.get .stackPointer + UInt64.ofNat r.width.bytes)
  /-- Where memory is not strict, all of them find what they read. -/
  lenient : m.memory.strict = false →
    (∀ o : Operand, ∃ v, o.read { m with ip := l.next } = .ok v) ∧
      ∀ w, ∃ r, ({ m with ip := l.next } : Machine).pop w = .ok r

theorem stackStep_of_locate (hd : s.disassemble = false) (hl : m.locate = .ok l) :
    m.StackStep s l where
  call target d hj hi hv := by
    refine ⟨stepsTo_call hd hj hl hi hv, fun r hr => ⟨fun hi => ?_, fun release hi =>
      stepsTo_ret_of_call hd hj hr hi⟩⟩
    have hret := stepsTo_ret_of_call hd hj hr hi
    rwa [set_returned_nothing] at hret
  push source v hi hv :=
    ⟨stepsTo_push hd hl hi hv, readWord_push { m with ip := l.next } source.width v⟩
  pushPointer w rex hw hi := by
    have hv : (Operand.register ⟨.general, 4, w, rex⟩).read { m with ip := l.next } =
        .ok (m.get .stackPointer &&& w.mask) :=
      congrArg Except.ok (Register.fetch_stackPointer_part hw rex m.registers)
    have hread := readWord_push { m with ip := l.next } w (m.get .stackPointer &&& w.mask)
    rw [Width.and_mask_and_mask] at hread
    have hstep := stepsTo_push hd hl hi hv
    exact ⟨hstep, get_push_stackPointer { m with ip := l.next } w _, hread⟩
  pop p v popped hi hpop := by
    obtain ⟨-, hpopped⟩ := pop_eq_ok hpop
    have hp : p.Encodable := Located.encodable_of_at? hl hi List.mem_cons_self
    refine ⟨stepsTo_pop hd hl hi hpop rfl, hpopped, fun hbase => ?_⟩
    rw [hpopped]
    exact resolve_set_stackPointer hp hbase _ _
  popRegister r v popped hi hpop := by
    obtain ⟨hv, hpopped⟩ := pop_eq_ok hpop
    obtain ⟨w, hr, -⟩ := (Located.encoded_of_at? hl hi).operands (.register r) List.mem_cons_self
    refine ⟨stepsTo_pop hd hl hi hpop rfl, ?_, hpopped⟩
    exact (Register.fetch_set hr popped.registers v).trans (Arithmetic.and_mask_of_lt hv)
  lenient h := exists_read_of_lenient h

/-- Words pushed one after another are popped in reverse order, and nothing has changed then but the
bytes right below the stack pointer; and the instructions on the stack do what they should. -/
theorem stack_last_in_first_out :
    (∀ (m : Machine) (items : List (Width × UInt64)), stackSize items < 2 ^ 64 →
      ∃ n, (m.pushAll items).popAll (items.map Prod.fst).reverse =
          .ok ((items.map fun i => i.2 &&& i.1.mask).reverse, n) ∧
        m.SameOutside (Below (m.get .stackPointer) (stackSize items)) n ∧ n.ip = m.ip) ∧
    ∀ (s : Settings) (m : Machine) (l : Located), s.disassemble = false → m.locate = .ok l →
      m.StackStep s l :=
  ⟨fun m _ h => popAll_pushAll m h, fun _ _ _ hd hl => stackStep_of_locate hd hl⟩

/-- `CALL` to a `RET 16` right behind it, `PUSH RSP`, `POP QWORD PTR [RSP]` and `POP RSP`, with the
stack pointer four bytes above the bottom of memory and a word there. -/
def nearBottom (ip : UInt64) : Machine :=
  let code := [0xE8, 0, 0, 0, 0, 0xC2, 0x10, 0, 0x54, 0x8F, 0x04, 0x24, 0x5C]
  { ((ofCode code).set .stackPointer 4).writeWord 4 .qword 7 with ip }

theorem nearBottom_restored :
    (∃ n, ((nearBottom 0x1000).pushAll [(.qword, 0xFEDC_BA98_7654_3210), (.word, 0x1_2345)]).popAll
        [.word, .qword] = .ok ([0x2345, 0xFEDC_BA98_7654_3210], n) ∧ n.get .stackPointer = 4) ∧
      ((nearBottom 0x1000).step .execute).machine.StepsTo .execute
        (((nearBottom 0x1005).writeWord 0xFFFF_FFFF_FFFF_FFFC .qword 0x1005).set .stackPointer 20) ∧
      ((nearBottom 0x1008).step .execute).machine.readWord 0xFFFF_FFFF_FFFF_FFFC .qword = .ok 4 ∧
      ((nearBottom 0x1009).step .execute).machine = ((nearBottom 0x100C).set .stackPointer
        12).writeWord 12 .qword 7 ∧
      ((nearBottom 0x100C).step .execute).machine.get .stackPointer = 7 := by
  obtain ⟨hall, hsteps⟩ := stack_last_in_first_out
  have hpointer (ip : UInt64) : (nearBottom ip).get .stackPointer = 4 := by
    change (nearBottom 0).get .stackPointer = 4
    decide +kernel
  refine ⟨?_, ?_, ?_, ?_, ?_⟩
  · obtain ⟨n, hn, hsame, -⟩ := hall (nearBottom 0x1000)
      [(.qword, 0xFEDC_BA98_7654_3210), (.word, 0x1_2345)] (by decide)
    refine ⟨n, hn, ?_⟩
    unfold get
    rw [hsame.registers]
    exact hpointer _
  · have hl : (nearBottom 0x1000).locate = .ok ⟨0x1000, {}, .oneByte, 0xE8,
        some (.call (.immediate ⟨0x1005, .qword, true⟩)), 0x1005⟩ := by rfl
    obtain ⟨⟨-, hcalled⟩, hret⟩ := (hsteps .execute _ _ rfl hl).call _ _ rfl rfl rfl
    have hr := (hret ⟨0x1005, {}, .oneByte, 0xC2, some (.ret 16), 0x1008⟩ (by rfl)).2 16 rfl
    have hplace : ((nearBottom 0x1000).belowTop .qword).address = 0xFFFF_FFFF_FFFF_FFFC := by
      decide +kernel
    unfold returned at hr
    rw [hpointer, hplace] at hr
    exact hcalled ▸ hr
  · have hl : (nearBottom 0x1008).locate = .ok ⟨0x1008, {}, .oneByte, 0x54,
        some (.push (.register ⟨.general, 4, .qword, false⟩)), 0x1009⟩ := by rfl
    obtain ⟨⟨-, hpushed⟩, htop, hread⟩ :=
      (hsteps .execute _ _ rfl hl).pushPointer .qword false (by decide) rfl
    rw [htop, hpointer] at hread
    rw [hpushed, hpointer]
    exact hread
  · let p : Pointer := { width := .qword, addressWidth := .qword, base := some (.general 4 .qword) }
    have hl : (nearBottom 0x1009).locate = .ok ⟨0x1009, {}, .oneByte, 0x8F,
        some (.pop (.memory p)), 0x100C⟩ := by rfl
    have hpopped : (nearBottom 0x100C).pop .qword =
        .ok (7, (nearBottom 0x100C).set .stackPointer 12) := by rfl
    obtain ⟨⟨-, hmachine⟩, -, hplace⟩ :=
      (hsteps .execute _ _ rfl hl).pop p _ _ rfl hpopped
    have htwelve : p.resolve ((nearBottom 0x100C).set .stackPointer 12) = 12 := by
      rw [hplace rfl]
      decide +kernel
    rw [hmachine, htwelve]
  · have hl : (nearBottom 0x100C).locate = .ok ⟨0x100C, {}, .oneByte, 0x5C,
        some (.pop (.register ⟨.general, 4, .qword, false⟩)), 0x100D⟩ := by rfl
    have hpopped : (nearBottom 0x100D).pop .qword =
        .ok (7, (nearBottom 0x100D).set .stackPointer 12) := by rfl
    obtain ⟨⟨-, hmachine⟩, hvalue, -⟩ :=
      (hsteps .execute _ _ rfl hl).popRegister _ _ _ rfl hpopped
    rw [hmachine]
    exact hvalue

end Machine

end LongMode

import LongMode.Proofs.Encoding.Alternative
import LongMode.Proofs.Run.Outside
/-!
Machines whose programs have two encodings of one instruction in one place. Both encodings are
listed with the same tokens, and both do the same in one step, but that the instruction pointer
comes to stand behind the one or the other.
-/

namespace LongMode.Machine

variable {D : UInt64 → Prop} {s : Settings} {m k : Machine} {l l' : Located} {i i' : Instruction}

/-- A step on one of them does what a step on the other one does. -/
theorem step_of_alike (halike : i.Alike i') (hl : m.locate = .ok l) (hk : k.locate = .ok l')
    (hd : s.disassemble = false) (hi : l.instruction = some i) (hi' : l'.instruction = some i')
    (h : m.SameOutside D k) (hoff : m.KeepsOff D) :
    (m.step s).SameOutside D (k.step s) ∧
      (m.step s).machine.ip = (if (m.step s).event.stop = .step then l.next else m.ip) ∧
      (k.step s).machine.ip = if (m.step s).event.stop = .step then l'.next else k.ip := by
  obtain ⟨hwords, hstack⟩ := hoff l i hl hi
  have hx := i.execute_sameOutside (frameOf s l) (h.moveTo l.next l.next) rfl hwords hstack
  have hx' : i'.execute (frameOf s l') { k with ip := l'.next } =
      (i.execute (frameOf s l) { k with ip := l.next }).map fun n => { n with ip := l'.next } :=
    halike.execute _ _ { k with ip := l.next } l'.next
  have hdone (n : Machine) (hn : i.execute (frameOf s l) { m with ip := l.next } = .done n) :
      n.ip = l.next := halike.ip_of_done hn
  rw [step_execute hl hd hi, step_execute hk hd hi', hx']
  generalize i.execute (frameOf s l) { m with ip := l.next } = o at hx hdone ⊢
  generalize i.execute (frameOf s l) { k with ip := l.next } = o' at hx ⊢
  cases hx with
  | @done n n' hn _ => exact ⟨⟨rfl, hn.moveTo n.ip l'.next⟩, hdone n rfl, rfl⟩
  | @halted e n n' hn _ =>
    have hstop : ¬ (Event.halted e).stop = .step := StopReason.ofHalt_ne_step e
    refine ⟨⟨rfl, hn.moveTo m.ip k.ip⟩, ?_, ?_⟩
    · exact (if_neg hstop).symm
    · exact (if_neg hstop).symm

theorem run_lines_of_listing {length : UInt64} (hc : m.inCode = true) (hl : m.locate = .ok l)
    (hi : l.instruction = some i) (hnext : l.next = m.ip + length) (hd : s.disassemble = true) :
    (m.run s true).status.lines = [⟨m.ip, length, i.tokens,
      if m.isBreakpoint m.ip then LineInfo.breakpoint else .none⟩] := by
  have hlength : l.length = length := by
    unfold Located.length
    rw [hnext, locate_start hl, UInt64.add_comm, UInt64.add_sub_cancel]
  have hline : (m.run s true).status.lines = [m.lineFor l] := by
    rw [run_single, if_pos hc, step_listing hl hd]
    rfl
  rw [hline]
  unfold lineFor
  rw [hi, hlength, locate_start hl]

/-- Two encodings of one instruction stand for instructions that read alike and do alike in every
machine. Both are listed with the same tokens, each with its own length, and a step does the same to
machines that differ in some bytes that the instruction keeps off. Only the instruction pointer
shows which one it was, and that only when the instruction is completed. -/
theorem run_alternative {left right : List UInt8} (hboth : Alternative left right)
    (hleft : Fetch.Holds m.memory.readByte m.ip left)
    (hright : Fetch.Holds k.memory.readByte m.ip right) (h : m.SameOutside D k) (hip : k.ip = m.ip)
    (hc : m.inCode = true) :
    (∃ l l' i i', m.locate = .ok l ∧ l.instruction = some i ∧ k.locate = .ok l' ∧
      l'.instruction = some i' ∧ i.Alike i' ∧ ∀ s : Settings, s.disassemble = true → ∃ mark,
        (m.run s true).status.lines = [⟨m.ip, UInt64.ofNat left.length, i.tokens, mark⟩] ∧
        (k.run s true).status.lines = [⟨m.ip, UInt64.ofNat right.length, i.tokens, mark⟩]) ∧
    ∀ s : Settings, s.disassemble = false → m.KeepsOff D →
      (m.run s true).SameOutside D (k.run s true) ∧
      (m.run s true).machine.ip = (if (m.run s true).stop = .step
        then m.ip + UInt64.ofNat left.length else m.ip) ∧
      (k.run s true).machine.ip = if (m.run s true).stop = .step
        then m.ip + UInt64.ofNat right.length else m.ip := by
  obtain ⟨i, i', hi, hi', halike⟩ := hboth.exists_alike m.ip
  obtain ⟨l, hl, hli, hnext⟩ := hi _ hleft
  obtain ⟨l', hl', hli', hnext'⟩ := hi' _ hright
  have hk : k.locate = .ok l' := by
    unfold locate
    rw [hip]
    exact hl'
  have hck : k.inCode = true := (h.inCode_eq hip).trans hc
  constructor
  · refine ⟨l, l', i, i', hl, hli, hk, hli', halike, fun s hd =>
      ⟨if m.isBreakpoint m.ip then LineInfo.breakpoint else .none, ?_, ?_⟩⟩
    · exact run_lines_of_listing hc hl hli hnext hd
    · have hmark : k.isBreakpoint m.ip = m.isBreakpoint m.ip := by
        unfold isBreakpoint
        rw [h.breakpoints]
      rw [run_lines_of_listing hck hk hli' (hip ▸ hnext') hd, hip, halike.tokens, hmark]
  · intro s hd hoff
    obtain ⟨hstep, hm, hkip⟩ := step_of_alike halike hl hk hd hli hli' h hoff
    refine ⟨run_sameOutside h hip hstep, ?_, ?_⟩
    · rw [run_single_machine hc, run_single_stop hc, hm, hnext]
    · rw [run_single_machine hck, run_single_stop hc, hkip, hnext', hip]

/-- `MOV R8, RSP`, with the register field as the source. -/
def copied : Machine := (ofCode [0x49, 0x89, 0xE0]).set .stackPointer 0x3000

/-- `SUB WORD PTR [RCX+0x8], 0xFFFF`, with one byte for the immediate. -/
def counted : Machine := (ofCode [0x66, 0x83, 0x69, 0x08, 0xFF]).set (.counter .qword) 0x2000

def counter : Pointer :=
  { width := .word, addressWidth := .qword, base := some (.counter .qword), displacement := 8 }

/-- `TEST AL, 0x80`, in the form for the accumulator. -/
def tested : Machine := ofCode [0xA8, 0x80]

theorem copied_counted_tested :
    ((copied.write 0x1000 [0x4C, 0x8B, 0xC4, 0x90]).run .execute true).machine.registers =
      (copied.run .execute true).machine.registers ∧
    ((counted.write 0x1000 [0x66, 0x81, 0x69, 0x08, 0xFF, 0xFF, 0x90, 0x90]).run .execute
      true).machine.ip = 0x1006 ∧
    ((tested.write 0x1000 [0xF6, 0xC8, 0x80, 0x90]).run .listing true).status.lines.map
        Line.tokens = (tested.run .listing true).status.lines.map Line.tokens := by
  refine ⟨?_, ?_, ?_⟩
  · have hboth : Alternative [0x49, 0x89, 0xE0] [0x4C, 0x8B, 0xC4] :=
      .registers .move false 4 0 (p := [0x49]) (q := [0x4C]) (List.forall_mem_singleton.2 rfl)
        (List.forall_mem_singleton.2 rfl) rfl
    have hl : copied.locate = .ok ⟨0x1000, { rex := some ⟨true, false, false, true⟩ }, .oneByte,
        0x89, some (.move (.register (.general 8 .qword)) (.register .stackPointer)), 0x1003⟩ := by rfl
    have hsame : SameOutside _ copied (copied.write 0x1000 [0x4C, 0x8B, 0xC4, 0x90]) :=
      SameOutside.write (e := ⟨0x1000, .dword⟩) rfl copied
    exact ((run_alternative hboth (Memory.holds_of_read (by rfl)) (Memory.holds_of_read (by rfl))
      hsame rfl (by rfl)).2 _ rfl (keepsOff_of_locate hl rfl nofun nofun)).1.machine.registers
  · have hboth : Alternative [0x66, 0x83, 0x69, 0x08, 0xFF] [0x66, 0x81, 0x69, 0x08, 0xFF, 0xFF] :=
      .immediate 0xFF (p := [0x66]) (List.forall_mem_singleton.2 rfl)
        (show IsOperand [0x69, 0x08] from ⟨rfl, by decide⟩)
    have hl : counted.locate = .ok ⟨0x1000, { operandSize := true }, .oneByte, 0x83,
        some (.binary .sub (.memory counter) (.immediate ⟨0xFFFF, .word, false⟩)), 0x1005⟩ := by rfl
    have hwords : ∀ e ∈ Instruction.elements
        (.binary .sub (.memory counter) (.immediate ⟨0xFFFF, .word, false⟩))
          { counted with ip := 0x1005 }, Element.Apart ⟨0x1000, .qword⟩ e := by decide +kernel
    have hsame : SameOutside _ counted
        (counted.write 0x1000 [0x66, 0x81, 0x69, 0x08, 0xFF, 0xFF, 0x90, 0x90]) :=
      SameOutside.write (e := ⟨0x1000, .qword⟩) rfl counted
    have hstop : (counted.run .execute true).stop = .step := by decide +kernel
    have hip := ((run_alternative hboth (Memory.holds_of_read (by rfl))
      (Memory.holds_of_read (by rfl)) hsame rfl (by rfl)).2 .execute rfl
        (keepsOff_of_locate hl rfl hwords nofun)).2.2
    rw [hstop, if_pos rfl] at hip
    exact hip
  · have hboth : Alternative [0xA8, 0x80] [0xF6, 0xC8, 0x80] :=
      .accumulator (.test true) true (p := []) (List.forall_mem_nil _) rfl
        (show [0x80].length = 1 from rfl)
    have hsame : SameOutside _ tested (tested.write 0x1000 [0xF6, 0xC8, 0x80, 0x90]) :=
      SameOutside.write (e := ⟨0x1000, .dword⟩) rfl tested
    obtain ⟨l, l', i, i', -, -, -, -, -, hlines⟩ := (run_alternative hboth
      (Memory.holds_of_read (by rfl)) (Memory.holds_of_read (by rfl)) hsame rfl (by rfl)).1
    obtain ⟨mark, hleft, hright⟩ := hlines .listing rfl
    exact (congrArg _ hright).trans (congrArg (List.map Line.tokens) hleft).symm

end LongMode.Machine

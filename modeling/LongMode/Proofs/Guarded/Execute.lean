import LongMode.Proofs.Encoding.Extent
import LongMode.Proofs.Guarded.Decode
import LongMode.Proofs.Guarded.Effects
import LongMode.Proofs.Guarded.StringOp
/-!
The execution of an instruction, guarded. The widths that the instruction works at, the registers
that it names and their names are looked at first. A decoded instruction passes that, and its effect
does not crash.
-/

namespace LongMode

theorem Instruction.WellFormed.operand_width {i : Instruction} (h : i.WellFormed) {o : Operand}
    (ho : o ∈ i.operands) : o.width.bytes ≤ 8 :=
  h.widths _ (List.mem_append_left _ (List.mem_map_of_mem ho))

section

variable {f : Fetch} {start : UInt64} {l : Located} {i : Instruction} {o : Operand} {m : Machine}
  {v : UInt64}

/-- The operands of an instruction have the width of a word or less, wherever it is found. -/
theorem Located.operand_width_of_at? (h : at? f start = .ok l) (hi : l.instruction = some i)
    (ho : o ∈ i.operands) : o.width.bytes ≤ 8 :=
  ((at?_spans h).wellFormed i hi).operand_width ho

theorem Located.read_lt_of_at? (h : at? f start = .ok l) (hi : l.instruction = some i)
    (ho : o ∈ i.named) (hv : o.read m = .ok v) : v.toNat < o.width.modulus := by
  refine Execute.read_lt (named_of_at? h hi o ho) (m := m) ?_
  rw [Execute.read, hv]
  rfl

end

namespace Guarded

/-! Checks of an instruction. -/

/-- The width is that of a word or less. -/
def width : Width → Except Crash Unit
  | .byte | .word | .dword | .qword => .ok ()
  | w => .error (.width w)

/-- All widths of the instruction, and all registers with the names that they are shown by. -/
def check (i : Instruction) : Except Crash Unit := do
  forM i.widths width
  forM (i.named.flatMap Operand.registers) fun r => do
    let r ← register r.bank r.code r.width r.rex
    let _ ← mnemonic r

theorem width_ok {w : Width} (h : w.bytes ≤ 8) : width w = .ok () := by
  cases w with
  | byte | word | dword | qword => rfl
  | xmm | ymm => exact absurd h (by decide)

theorem register_ok {r : Register} (h : r.Exists) :
    register r.bank r.code r.width r.rex = .ok r := by
  unfold register Register.ofCode
  rw [dif_pos (show r.code.val < r.bank.size from h)]

theorem forM_ok {α : Type} {xs : List α} {f : α → Except Crash Unit} (h : ∀ x ∈ xs, f x = .ok ()) :
    forM xs f = .ok () := by
  induction xs with
  | nil => rfl
  | cons x xs ih =>
    rw [List.forM_cons, h x List.mem_cons_self, ok_bind]
    exact ih fun y hy => h y (List.mem_cons_of_mem x hy)

theorem check_ok {i : Instruction} (hw : i.WellFormed) (hn : i.Named) : check i = .ok () := by
  unfold check
  rw [forM_ok fun w hmem => width_ok (hw.widths w hmem), ok_bind]
  refine forM_ok fun r hr => ?_
  obtain ⟨o, ho, hro⟩ := List.mem_flatMap.1 hr
  rw [register_ok ((hn o ho).exists r hro), ok_bind, mnemonic_eq]
  rfl

def execute (i : Instruction) (frame : Frame) (m : Machine) : Except Crash Outcome := do
  check i
  match i with
  | .binary op dst src => whole m (binary op dst src m)
  | .test dst src => whole m (test dst src m)
  | .unary op target => whole m (unary op target m)
  | .multiply signed source => whole m (multiply signed source m)
  | .divide signed source => whole m (divide frame signed source m)
  | .multiplyInto dst src factor => whole m (multiplyInto dst src factor m)
  | .move dst src => whole m (move dst src m)
  | .moveExtend signed dst src => whole m (moveExtend signed dst src m)
  | .loadAddress dst src => whole m (loadAddress dst src m)
  | .exchange a b => whole m (exchange a b m)
  | .exchangeAdd dst src => whole m (exchangeAdd dst src m)
  | .moveIf cond dst src => whole m (moveIf frame cond dst src m)
  | .setIf cond dst => whole m (setIf frame cond dst m)
  | .swapBytes target => .done <$> swapBytes target m
  | .widenAccumulator w => .done <$> widenAccumulator w m
  | .spreadSign w => .done <$> spreadSign w m
  | .push source => whole m (push source m)
  | .pop target => whole m (pop target m)
  | .pushFlags w => .done <$> pushWord m w m.flags.toWord
  | .popFlags w => whole m (popFlags w m)
  | .leave w => leave w m
  | .jump cond target => whole m (jumpIf frame cond target m)
  | .call target => whole m (call frame target m)
  | .ret release => whole m (ret frame release m)
  | .shift op target count => whole m (shiftBy op target count m)
  | .bitTest op base offset => whole m (bitTest op base offset m)
  | .bitScan reverse dst src => whole m (bitScan reverse dst src m)
  | .flag op => .ok (.done (m.define (Execute.flagResult op m.flags)))
  | .loadFlags => .done <$> loadFlags m
  | .storeFlags => .done <$> storeFlags m
  | .string op => executeString op m
  | .nop _ => .ok (.done m)

open Instruction in
/-- A decoded instruction does not crash the engine, in whatever state it is executed. -/
theorem execute_eq {i : Instruction} (hw : i.WellFormed) (hn : i.Named) (frame : Frame)
    (m : Machine) : execute i frame m = .ok (i.execute frame m) := by
  have place {o : Operand} (h : o ∈ i.written) : o.isPlace := hw.written o h
  have narrow {o : Operand} (h : o ∈ i.operands) : o.width.bytes ≤ 8 := hw.operand_width h
  have done {c : Except Crash Machine} {next : Machine} (h : c = .ok next) :
      Outcome.done <$> c = .ok (.done next) := by rw [h]; rfl
  unfold execute
  rw [check_ok hw hn, ok_bind]
  cases i with
  | binary op dst src => exact whole_of_runs m (binary_runs op (place (by simp [written])))
  | test dst src => exact whole_of_runs m test_runs
  | unary op target => exact whole_of_runs m (unary_runs op (place (by simp [written])))
  | multiply signed source =>
    exact whole_of_runs m (multiply_runs signed (narrow (by simp [operands])))
  | divide signed source =>
    exact whole_of_runs m (divide_runs signed (narrow (by simp [operands]))
      (hn source (by simp [named, operands])))
  | multiplyInto dst src factor =>
    exact whole_of_runs m (multiplyInto_runs factor (narrow (by simp [operands]))
      (place (by simp [written])))
  | move dst src => exact whole_of_runs m (move_runs (place (by simp [written])))
  | moveExtend signed dst src =>
    exact whole_of_runs m (moveExtend_runs signed (place (by simp [written])))
  | loadAddress dst src => exact whole_of_runs m (loadAddress_runs (place (by simp [written])))
  | exchange a b =>
    exact whole_of_runs m (exchange_runs (place (by simp [written])) (place (by simp [written])))
  | exchangeAdd dst src =>
    exact whole_of_runs m (exchangeAdd_runs (place (by simp [written])) (place (by simp [written])))
  | moveIf cond dst src => exact whole_of_runs m (moveIf_runs cond (place (by simp [written])))
  | setIf cond dst => exact whole_of_runs m (setIf_runs cond (place (by simp [written])))
  | swapBytes target => exact done (swapBytes_eq target m)
  | widenAccumulator w => exact done (widenAccumulator_eq w m)
  | spreadSign w => exact done (spreadSign_eq w m)
  | push source => exact whole_of_runs m push_runs
  | pop target => exact whole_of_runs m (pop_runs (place (by simp [written])))
  | pushFlags w => exact done (pushWord_eq m w _)
  | popFlags w => exact whole_of_runs m (popFlags_runs w)
  | leave w => exact leave_eq w m
  | jump cond target => exact whole_of_runs m (jumpIf_runs cond)
  | call target => exact whole_of_runs m call_runs
  | ret release => exact whole_of_runs m (ret_runs release)
  | shift op target count =>
    exact whole_of_runs m (shiftBy_runs op (narrow (by simp [operands])) (place (by simp [written])))
  | bitTest op base offset =>
    exact whole_of_runs m (bitTest_runs op (narrow (by simp [operands])) (place (by simp [written])))
  | bitScan reverse dst src =>
    exact whole_of_runs m (bitScan_runs reverse (place (by simp [written])))
  | flag op => rfl
  | loadFlags => exact done (loadFlags_eq m)
  | storeFlags => exact done (storeFlags_eq m)
  | string op => exact executeString_eq op m
  | nop operand => rfl

/-- An instruction that no encoding has may crash the engine. -/
example : execute (.unary .inc (.immediate ⟨1, .byte, false⟩)) ⟨0, .qword, true⟩ default =
    .error (.misuse .immediateWrite) := rfl

end Guarded

end LongMode

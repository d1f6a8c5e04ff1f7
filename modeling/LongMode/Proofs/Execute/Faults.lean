import LongMode.Execute.Instruction
import LongMode.Proofs.Encoding.WellFormed
import LongMode.Proofs.Except
/-!
What stops an instruction. The engine can serve every request of a well-formed instruction, so that
only a fault stops it. A fault leaves the machine as it was, except that `LEAVE` has dropped its
stack frame by then and that a repeated string instruction keeps the elements it has dealt with.
-/

namespace LongMode

theorem ok_of_orFault {α : Type} {r : Except Fault α} {x : α} (h : orFault r = .ok x) :
    r = .ok x := by
  cases r with
  | ok y => cases h; rfl
  | error f => cases h

def OnlyFaults {α : Type} (r : Except Halt α) : Prop := ∀ h, r = .error h → ∃ f, h = .fault f

namespace OnlyFaults

variable {α β : Type}

theorem ok (x : α) : OnlyFaults (.ok x) := by
  intro h hx
  cases hx

theorem fault (f : Fault) : OnlyFaults (.error (.fault f) : Except Halt α) := by
  intro h hx
  cases hx
  exact ⟨f, rfl⟩

theorem bind {r : Except Halt α} {f : α → Except Halt β} (hr : OnlyFaults r)
    (hf : ∀ x, OnlyFaults (f x)) : OnlyFaults (r >>= f) := by
  cases r with
  | ok x => exact hf x
  | error e =>
    obtain ⟨f, rfl⟩ := hr e rfl
    exact OnlyFaults.fault f

theorem orFault (r : Except Fault α) : OnlyFaults (orFault r) := by
  cases r with
  | ok x => exact ok x
  | error f => exact fault f

theorem ite {c : Prop} [Decidable c] {r s : Except Halt α} (hr : OnlyFaults r)
    (hs : OnlyFaults s) : OnlyFaults (if c then r else s) := by
  split_ifs
  · exact hr
  · exact hs

end OnlyFaults

namespace Execute

variable {m : Machine} {frame : Frame} {o dst src : Operand}

theorem read_onlyFaults (o : Operand) (m : Machine) : OnlyFaults (read o m) := .orFault _

theorem write_onlyFaults (h : o.isPlace) (v : UInt64) (m : Machine) : OnlyFaults (write o v m) := by
  cases o with
  | register r => exact .ok _
  | memory p => exact .ok _
  | immediate i => cases h

theorem binary_onlyFaults (op : BinaryOp) (h : dst.isPlace) :
    OnlyFaults (binary op dst src m) := by
  refine (read_onlyFaults dst m).bind fun a => (read_onlyFaults src m).bind fun b => ?_
  dsimp only
  split_ifs
  · exact .ok _
  · exact (write_onlyFaults h _ m).bind fun _ => .ok _

theorem test_onlyFaults : OnlyFaults (test dst src m) :=
  (read_onlyFaults dst m).bind fun _ => (read_onlyFaults src m).bind fun _ => .ok _

theorem unary_onlyFaults (op : UnaryOp) (h : o.isPlace) : OnlyFaults (unary op o m) :=
  (read_onlyFaults o m).bind fun _ => (write_onlyFaults h _ m).bind fun _ => .ok _

theorem multiply_onlyFaults (signed : Bool) : OnlyFaults (multiply signed o m) :=
  (read_onlyFaults o m).bind fun _ => .ok _

theorem divide_onlyFaults (signed : Bool) : OnlyFaults (divide frame signed o m) := by
  refine (read_onlyFaults o m).bind fun divisor => ?_
  dsimp only
  split
  · exact .fault _
  · exact .ok _

theorem multiplyInto_onlyFaults (factor : Option Operand) (h : dst.isPlace) :
    OnlyFaults (multiplyInto dst src factor m) :=
  (read_onlyFaults _ m).bind fun _ => (read_onlyFaults _ m).bind fun _ =>
    (write_onlyFaults h _ m).bind fun _ => .ok _

theorem move_onlyFaults (h : dst.isPlace) : OnlyFaults (move dst src m) :=
  (read_onlyFaults src m).bind fun _ => write_onlyFaults h _ m

theorem moveExtend_onlyFaults (signed : Bool) (h : dst.isPlace) :
    OnlyFaults (moveExtend signed dst src m) :=
  (read_onlyFaults src m).bind fun _ => write_onlyFaults h _ m

theorem exchange_onlyFaults (hdst : dst.isPlace) (hsrc : src.isPlace) :
    OnlyFaults (exchange dst src m) :=
  (read_onlyFaults dst m).bind fun _ => (read_onlyFaults src m).bind fun _ =>
    (write_onlyFaults hdst _ m).bind fun written => write_onlyFaults hsrc _ written

theorem exchangeAdd_onlyFaults (hdst : dst.isPlace) (hsrc : src.isPlace) :
    OnlyFaults (exchangeAdd dst src m) :=
  (read_onlyFaults dst m).bind fun _ => (read_onlyFaults src m).bind fun _ =>
    (write_onlyFaults hsrc _ m).bind fun copied =>
      (write_onlyFaults hdst _ copied).bind fun _ => .ok _

theorem moveIf_onlyFaults (cond : Condition) (h : dst.isPlace) :
    OnlyFaults (moveIf frame cond dst src m) := by
  refine (read_onlyFaults src m).bind fun v => ?_
  refine .ite (write_onlyFaults h v m) (.ite ?_ (.ok m))
  exact (read_onlyFaults dst m).bind fun current => write_onlyFaults h current m

theorem pop_onlyFaults (h : o.isPlace) : OnlyFaults (pop o m) :=
  (OnlyFaults.orFault _).bind fun s => write_onlyFaults h s.1 s.2

theorem jumpIf_onlyFaults (cond : Condition) : OnlyFaults (jumpIf frame cond o m) :=
  (read_onlyFaults o m).bind fun _ => .ok _

theorem shift_onlyFaults (op : ShiftOp) (h : dst.isPlace) : OnlyFaults (shift op dst src m) := by
  refine (read_onlyFaults dst m).bind fun v => (read_onlyFaults src m).bind fun amount => ?_
  split
  · exact .ok m
  · exact (write_onlyFaults h _ m).bind fun _ => .ok _

theorem bitTest_onlyFaults (op : BitOp) (h : dst.isPlace) :
    OnlyFaults (bitTest op dst src m) := by
  refine (read_onlyFaults src m).bind fun raw => ?_
  dsimp only
  generalize bitPlace dst src raw m = place
  obtain ⟨address?, bit⟩ := place
  cases address? with
  | some a =>
    refine (OnlyFaults.orFault _).bind fun v => ?_
    cases bitResult op v (1 <<< UInt64.ofNat bit) with
    | none => exact .ok _
    | some new => exact .ok _
  | none =>
    refine (read_onlyFaults dst m).bind fun v => ?_
    cases bitResult op v (1 <<< UInt64.ofNat bit) with
    | none => exact .ok _
    | some new => exact (write_onlyFaults h new m).bind fun _ => .ok _

theorem bitScan_onlyFaults (reverse : Bool) (h : dst.isPlace) :
    OnlyFaults (bitScan reverse dst src m) := by
  refine (read_onlyFaults src m).bind fun v => .ite (.ok _) ?_
  exact (write_onlyFaults h _ m).bind fun _ => .ok _

end Execute

theorem Outcome.whole_eq_halted {m n : Machine} {r : Except Halt Machine} {h : Halt} :
    whole m r = .halted h n ↔ r = .error h ∧ n = m := by
  cases r with
  | ok next => simp [whole]
  | error e => simp [whole, eq_comm]

theorem Outcome.whole_eq_done {m n : Machine} {r : Except Halt Machine} :
    whole m r = .done n ↔ r = .ok n := by
  cases r with
  | ok next => simp [whole]
  | error e => simp [whole]

namespace StringOp

theorem loop_onlyFaults (op : StringOp) (whileEqual : Bool) (count : Nat) (m : Machine) {h : Halt}
    {n : Machine} (hl : op.loop whileEqual count m = .halted h n) : ∃ f, h = .fault f := by
  induction count generalizing m with
  | zero => cases hl
  | succ count ih =>
    unfold loop at hl
    cases he : op.element m with
    | error f =>
      rw [he] at hl
      cases hl
      exact ⟨f, rfl⟩
    | ok next =>
      rw [he] at hl
      dsimp only at hl
      split_ifs at hl
      exact ih _ hl

theorem execute_onlyFaults (op : StringOp) {m n : Machine} {h : Halt}
    (hx : op.execute m = .halted h n) : ∃ f, h = .fault f := by
  unfold execute at hx
  split at hx
  · exact loop_onlyFaults op true _ m hx
  · exact loop_onlyFaults op false _ m hx
  · exact OnlyFaults.orFault _ h (Outcome.whole_eq_halted.1 hx).1
  · exact OnlyFaults.orFault _ h (Outcome.whole_eq_halted.1 hx).1

end StringOp

namespace Instruction

open Execute

/-- A string instruction that goes on until the counter is used up. -/
def repeats : Instruction → Bool
  | string op => op.repetition == some .whileEqual || op.repetition == some .whileUnequal
  | _ => false

/-- No well-formed instruction asks for what the engine cannot do. -/
theorem execute_onlyFaults {i : Instruction} (hw : i.WellFormed) {frame : Frame} {m n : Machine}
    {h : Halt} (hx : i.execute frame m = .halted h n) : ∃ f, h = .fault f := by
  have place := hw.written
  have whole {r : Except Halt Machine} {left : Machine} (hr : OnlyFaults r)
      (hx : Outcome.whole left r = .halted h n) : ∃ f, h = .fault f :=
    hr h (Outcome.whole_eq_halted.1 hx).1
  cases i with
  | binary op dst src => exact whole (binary_onlyFaults op (place dst (by simp [written]))) hx
  | test dst src => exact whole test_onlyFaults hx
  | unary op target => exact whole (unary_onlyFaults op (place target (by simp [written]))) hx
  | multiply signed source => exact whole (multiply_onlyFaults signed) hx
  | divide signed source => exact whole (divide_onlyFaults signed) hx
  | multiplyInto dst src factor =>
    exact whole (multiplyInto_onlyFaults factor (place dst (by simp [written]))) hx
  | move dst src => exact whole (move_onlyFaults (place dst (by simp [written]))) hx
  | moveExtend signed dst src =>
    exact whole (moveExtend_onlyFaults signed (place dst (by simp [written]))) hx
  | loadAddress dst src => exact whole (write_onlyFaults (place dst (by simp [written])) _ m) hx
  | exchange a b =>
    exact whole (exchange_onlyFaults (place a (by simp [written])) (place b (by simp [written]))) hx
  | exchangeAdd dst src =>
    exact whole
      (exchangeAdd_onlyFaults (place dst (by simp [written])) (place src (by simp [written]))) hx
  | moveIf cond dst src => exact whole (moveIf_onlyFaults cond (place dst (by simp [written]))) hx
  | setIf cond dst => exact whole (write_onlyFaults (place dst (by simp [written])) _ m) hx
  | push source => exact whole ((read_onlyFaults source m).bind fun _ => .ok _) hx
  | pop target => exact whole (pop_onlyFaults (place target (by simp [written]))) hx
  | popFlags w => exact whole ((OnlyFaults.orFault _).bind fun _ => .ok _) hx
  | leave w => exact whole ((OnlyFaults.orFault _).bind fun _ => .ok _) hx
  | jump cond target => exact whole (jumpIf_onlyFaults cond) hx
  | call target => exact whole ((read_onlyFaults target m).bind fun _ => .ok _) hx
  | ret release => exact whole ((OnlyFaults.orFault _).bind fun _ => .ok _) hx
  | shift op target count => exact whole (shift_onlyFaults op (place target (by simp [written]))) hx
  | bitTest op base offset =>
    exact whole (bitTest_onlyFaults op (place base (by simp [written]))) hx
  | bitScan reverse dst src =>
    exact whole (bitScan_onlyFaults reverse (place dst (by simp [written]))) hx
  | string op => exact op.execute_onlyFaults hx
  | swapBytes target => cases hx
  | widenAccumulator w => cases hx
  | spreadSign w => cases hx
  | pushFlags w => cases hx
  | flag op => cases hx
  | loadFlags => cases hx
  | storeFlags => cases hx
  | nop operand => cases hx

/-- The machine that a halted instruction leaves. -/
theorem execute_halted_machine {i : Instruction} {frame : Frame} {m n : Machine} {h : Halt}
    (hr : i.repeats = false) (hx : i.execute frame m = .halted h n) :
    n = m ∨ ∃ w, i = .leave w ∧ n = m.set .stackPointer (m.get (.basePointer .qword)) := by
  cases i with
  | leave w => exact .inr ⟨w, rfl, (Outcome.whole_eq_halted.1 hx).2⟩
  | string op =>
    left
    unfold repeats at hr
    change op.execute m = _ at hx
    unfold StringOp.execute at hx
    split at hx
    · simp_all
    · simp_all
    · exact (Outcome.whole_eq_halted.1 hx).2
    · exact (Outcome.whole_eq_halted.1 hx).2
  | swapBytes | widenAccumulator | spreadSign | pushFlags | flag | loadFlags | storeFlags | nop =>
    cases hx
  | _ => exact .inl (Outcome.whole_eq_halted.1 hx).2

end Instruction

end LongMode

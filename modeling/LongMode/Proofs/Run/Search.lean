import LongMode.Proofs.Encoding.Operands
import LongMode.Proofs.Execute.Repetition
import LongMode.Proofs.Run.Step
/-!
Comparisons repeated. The count is looked at before an element and the zero flag behind it, so the
repetition comes to the first element that ends it, or else to the end of the elements. What it
leaves is the machine with its indexes and its counter behind that element, and with the flags of
the last comparison it made.
-/

namespace LongMode

namespace StringOp

variable {op : StringOp} {m : Machine} {whileEqual : Bool} {i k left n : Nat}

def Ends (op : StringOp) (whileEqual : Bool) (i : Nat) (m : Machine) : Prop :=
  if whileEqual then (op.compared i m).1 ≠ (op.compared i m).2
  else (op.compared i m).1 = (op.compared i m).2

instance (op : StringOp) (whileEqual : Bool) (i : Nat) (m : Machine) :
    Decidable (op.Ends whileEqual i m) := by
  unfold Ends
  infer_instance

theorem compared_lt (op : StringOp) (i : Nat) (m : Machine) :
    (op.compared i m).1.toNat < op.width.modulus ∧
      (op.compared i m).2.toNat < op.width.modulus := by
  refine ⟨?_, Memory.value_lt (op.item op.destination i m) m.memory⟩
  unfold compared
  dsimp only
  split_ifs
  · exact Memory.value_lt (op.item op.source i m) m.memory
  · exact m.get_general_lt 0 op.width

theorem stops_define_outcome (hk : op.kind.compares = true) (hw : op.width.bytes ≤ 8)
    (whileEqual : Bool) (i : Nat) (m n : Machine) :
    op.stops whileEqual (n.define (op.outcome i m)) = true ↔ op.Ends whileEqual i m := by
  obtain ⟨hleft, hright⟩ := op.compared_lt i m
  have hzero := (Arithmetic.compared_sub hw hleft hright n.flags).zero
  change isOn (n.define (op.outcome i m)).flags.zero = _ at hzero
  unfold stops Ends
  rw [hk, hzero]
  cases whileEqual <;> simp

theorem compared_define (op : StringOp) (i j : Nat) (m n : Machine) :
    op.compared i (m.define (op.outcome j n)) = op.compared i m := rfl

theorem compared_past (hk : op.kind.compares = true) (i k left : Nat) (m : Machine) :
    op.compared i (op.past k left m) = op.compared (k + i) m := by
  have haccumulator : (op.past k left m).get (.accumulator op.width) =
      m.get (.accumulator op.width) := by
    refine get_past_of_slot_ne (by simp [Register.accumulator]) ?_ k left m
    obtain h | h | h := op.indexes_eq <;> simp [h, Register.accumulator]
  have hdestination : op.item op.destination i (op.past k left m) =
      op.item op.destination (k + i) m := by
    refine congrArg (Element.mk · _) (index_past ?_ i k left m)
    unfold indexes
    cases hkind : op.kind <;> simp_all [StringKind.compares]
  have hsource (hkind : op.kind = .compare) : op.item op.source i (op.past k left m) =
      op.item op.source (k + i) m :=
    congrArg (Element.mk · _) (index_past (by simp [indexes, hkind]) i k left m)
  unfold compared
  rw [memory_past, haccumulator, hdestination]
  split_ifs with hkind
  · rw [hsource hkind]
  · rfl

/-- The machine behind `k` elements that have not ended the repetition. -/
def reached (op : StringOp) (k left : Nat) (m : Machine) : Machine :=
  match k with
  | 0 => m
  | k + 1 => (op.past (k + 1) left m).define (op.outcome k m)

theorem outcome_reached (hk : op.kind.compares = true) (k left : Nat) (m : Machine) :
    op.outcome 0 (op.reached k left m) = op.outcome k m := by
  cases k with
  | zero => rfl
  | succ k =>
    unfold outcome reached
    rw [compared_define, compared_past hk]

/-- One element more. -/
theorem past_reached (hk : op.kind.compares = true) (k left next : Nat) (m : Machine) :
    op.past 1 next ((op.reached k left m).define (op.outcome 0 (op.reached k left m))) =
      op.reached (k + 1) next m := by
  rw [past_define, outcome_reached hk]
  cases k with
  | zero => rfl
  | succ k =>
    unfold reached
    rw [past_define, past_past, define_outcome]

theorem memory_reached (op : StringOp) (k left : Nat) (m : Machine) :
    (op.reached k left m).memory = m.memory := by
  cases k with
  | zero => rfl
  | succ k => exact op.memory_past (k + 1) left m

theorem counter_reached (hn : (m.get op.counter).toNat = k + left) :
    ((op.reached k left m).get op.counter).toNat = left := by
  have hlt := m.get_general_lt 1 op.pointerWidth
  cases k with
  | zero => rwa [Nat.zero_add] at hn
  | succ k =>
    rw [counter_eq] at hn
    exact Machine.get_set_general _ (by omega)

/-- One element is compared, and ends the repetition or not. -/
theorem repeated_reached_succ (hk : op.kind.compares = true) (hw : op.width.bytes ≤ 8)
    (hm : m.memory.strict = false) (hn : (m.get op.counter).toNat = k + (left + 1)) :
    op.repeated whileEqual (op.reached k (left + 1) m) =
      if op.Ends whileEqual k m then .done (op.reached (k + 1) left m)
      else op.repeated whileEqual (op.reached (k + 1) left m) := by
  have hstrict : (op.reached k (left + 1) m).memory.strict = false := by rwa [memory_reached]
  have hnext : (op.onward 1 ((op.reached k (left + 1) m).define
      (op.outcome 0 (op.reached k (left + 1) m)))).set op.counter (UInt64.ofNat left) =
        op.reached (k + 1) left m := past_reached hk k (left + 1) left m
  have hstops : op.stops whileEqual (op.reached (k + 1) left m) = true ↔
      op.Ends whileEqual k m := stops_define_outcome hk hw whileEqual k m _
  rw [repeated_succ (counter_reached hn), element_of_compares hk hstrict]
  dsimp only
  rw [hnext]
  by_cases h : op.Ends whileEqual k m
  · rw [if_pos (hstops.2 h), if_pos h]
  · rw [if_neg (mt hstops.1 h), if_neg h]

/-- The indexes and the counter stand behind the last element compared, and the flags are those of
its comparison. -/
theorem reached_succ (op : StringOp) (k left : Nat) (m : Machine) :
    op.reached (k + 1) left m =
      { op.past (k + 1) left m with flags := m.flags.overlap (op.outcome k m) } := by
  rw [reached, Machine.define, flags_past]

/-- Elements that do not end the repetition are passed one after the other. -/
theorem repeated_reached (hk : op.kind.compares = true) (hw : op.width.bytes ≤ 8)
    (hm : m.memory.strict = false) (hn : (m.get op.counter).toNat = k + left)
    (hpass : ∀ j < k, ¬ op.Ends whileEqual j m) :
    op.repeated whileEqual m = op.repeated whileEqual (op.reached k left m) := by
  induction k generalizing left with
  | zero => rfl
  | succ k ih =>
    have hn' : (m.get op.counter).toNat = k + (left + 1) := by omega
    rw [ih hn' fun j hj => hpass j (Nat.lt_succ_of_lt hj), repeated_reached_succ hk hw hm hn',
      if_neg (hpass k (Nat.lt_succ_self k))]

/-- The first element that ends the repetition is the last one to be compared. -/
theorem repeated_of_ends (hk : op.kind.compares = true) (hw : op.width.bytes ≤ 8)
    (hm : m.memory.strict = false) (hn : (m.get op.counter).toNat = k + (left + 1))
    (hends : op.Ends whileEqual k m) (hpass : ∀ j < k, ¬ op.Ends whileEqual j m) :
    op.repeated whileEqual m = .done (op.reached (k + 1) left m) := by
  rw [repeated_reached hk hw hm hn hpass, repeated_reached_succ hk hw hm hn, if_pos hends]

/-- Where no element ends the repetition, all of them are compared. -/
theorem repeated_of_passes (hk : op.kind.compares = true) (hw : op.width.bytes ≤ 8)
    (hm : m.memory.strict = false)
    (hpass : ∀ j < (m.get op.counter).toNat, ¬ op.Ends whileEqual j m) :
    op.repeated whileEqual m = .done (op.reached (m.get op.counter).toNat 0 m) := by
  rw [repeated_reached hk hw hm (Nat.add_zero _).symm hpass]
  exact repeated_zero (counter_reached (Nat.add_zero _).symm) whileEqual

end StringOp

namespace Machine

variable {s : Settings} {m : Machine} {l : Located} {op : StringOp} {whileEqual : Bool}

/-- A repeated comparison ends behind the first element that ends it, or else behind all of them;
without an element it does nothing. -/
theorem run_searches (hd : s.disassemble = false) (hc : m.inCode = true) (hl : m.locate = .ok l)
    (hi : l.instruction = some (.string op)) (hr : op.Repeats whileEqual)
    (hk : op.kind.compares = true) (hm : m.memory.strict = false) :
    let past := { m with ip := l.next }
    let after := (m.run s true).machine
    let n := (m.get op.counter).toNat
    op.pointerWidth = l.modifiers.addressWidth ∧ (m.run s true).stop = .step ∧
    (n = 0 → after = past) ∧
    (∀ k < n, op.Ends whileEqual k m → (∀ j < k, ¬ op.Ends whileEqual j m) →
      after = { op.past (k + 1) (n - k - 1) past with
        flags := m.flags.overlap (op.outcome k m) }) ∧
    (0 < n → (∀ j < n, ¬ op.Ends whileEqual j m) →
      after = { op.past n 0 past with flags := m.flags.overlap (op.outcome (n - 1) m) }) := by
  intro past after n
  have hw : op.width.bytes ≤ 8 :=
    ((Located.at?_spans hl).wellFormed _ hi).widths _ (by simp [Instruction.widths])
  have hrun {k : Machine} (h : op.repeated whileEqual past = .done k) :
      (m.run s true).stop = .step ∧ after = k :=
    run_of_done hl hd hi hc ((op.execute_of_repeats hr past).trans h)
  have hends (k left : Nat) (hn : n = k + (left + 1)) (hk' : op.Ends whileEqual k m)
      (hpass : ∀ j < k, ¬ op.Ends whileEqual j m) :=
    hrun (StringOp.repeated_of_ends (m := past) hk hw hm hn hk' hpass)
  have hpasses (hpass : ∀ j < n, ¬ op.Ends whileEqual j m) :=
    hrun (StringOp.repeated_of_passes (m := past) hk hw hm hpass)
  refine ⟨(Located.encoded_of_at? hl hi).agree, ?_, ?_, ?_, ?_⟩
  · by_cases h : ∃ k, k < n ∧ op.Ends whileEqual k m
    · obtain ⟨hkn, hk'⟩ := Nat.find_spec h
      refine (hends _ (n - Nat.find h - 1) (by omega) hk' fun j hj hj' => ?_).1
      exact Nat.find_min h hj ⟨hj.trans hkn, hj'⟩
    · exact (hpasses fun j hj hj' => h ⟨j, hj, hj'⟩).1
  · intro h0
    exact (hrun (StringOp.repeated_zero (m := past) h0 whileEqual)).2
  · intro k hkn hk' hpass
    exact (hends k (n - k - 1) (by omega) hk' hpass).2.trans (op.reached_succ _ _ past)
  · intro hpos hpass
    have hreached : ∀ i, 0 < i → op.reached i 0 past =
        { op.past i 0 past with flags := m.flags.overlap (op.outcome (i - 1) m) } := by
      rintro (_ | i) hi'
      · omega
      · exact op.reached_succ i 0 past
    exact (hpasses hpass).2.trans (hreached n hpos)

/-- `REPE CMPSB` over five bytes, the third of which differ. -/
def mismatch : Machine :=
  ((((ofCode [0xF3, 0xA6]).write 0x2000 [1, 2, 3, 4, 5]).write 0x3000 [1, 2, 9, 4, 5]).set
    (.counter .qword) 5).set (.sourceIndex .qword) 0x2000 |>.set (.destinationIndex .qword) 0x3000

/-- `REPNE SCASW` downwards over two words under the address-size prefix, neither of them the one
sought. -/
def absent : Machine :=
  { ((ofCode [0x67, 0x66, 0xF2, 0xAF]).set (.accumulator .word) 7).set (.counter .qword)
      0xFFFFFFFF00000002 with
    flags := { Flags.cleared with direction := some true } }

theorem mismatch_found_absent_not :
    ((mismatch.run .execute true).machine.get (.counter .qword) = 2 ∧
      (mismatch.run .execute true).machine.get (.sourceIndex .qword) = 0x2003 ∧
      (mismatch.run .execute true).machine.flags.carry = some true) ∧
    (absent.run .execute true).machine.get (.counter .qword) = 0 ∧
      (absent.run .execute true).machine.get (.destinationIndex .qword) = 0xFFFFFFFC ∧
      (absent.run .execute true).machine.flags.zero = some false := by
  constructor
  · have hl : mismatch.locate = .ok ⟨0x1000, { repetition := some .whileEqual }, .oneByte, 0xA6,
        some (.string ⟨.compare, .byte, .qword, some .whileEqual, none⟩), 0x1002⟩ := by rfl
    obtain ⟨-, -, -, hfound, -⟩ := run_searches (s := .execute) rfl (by rfl) hl rfl
      (show StringOp.Repeats _ true from rfl) rfl (by rfl)
    rw [hfound 2 (by decide +kernel) (by decide +kernel) (by decide +kernel)]
    decide +kernel
  · have hl : absent.locate = .ok ⟨0x1000,
        { addressSize := true, operandSize := true, repetition := some .whileUnequal }, .oneByte,
        0xAF,
        some (.string ⟨.scan, .word, .dword, some .whileUnequal, none⟩), 0x1004⟩ := by rfl
    obtain ⟨-, -, -, -, hnone⟩ := run_searches (s := .execute) rfl (by rfl) hl rfl
      (show StringOp.Repeats _ false from rfl) rfl (by rfl)
    rw [hnone (by decide +kernel) (by decide +kernel)]
    decide +kernel

end Machine

end LongMode

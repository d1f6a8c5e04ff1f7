import LongMode.Proofs.Arithmetic.Comparison
import LongMode.Proofs.Execute.Flags
import LongMode.Proofs.Execute.Pair
import LongMode.Proofs.Execute.Unnoticed
import LongMode.Proofs.Memory.Block
/-!
Repeated string instructions. The indexes of an element are worked out from those of the first one,
and what stands behind some elements is the old machine with its indexes moved on and its counter
counted down. Two ways lead to the same place: some elements and then some more, or all at once.
-/

namespace LongMode

namespace Width

theorem modulus_dvd (w : Width) : w.modulus ∣ 2 ^ 64 := by
  cases w <;> decide

theorem and_mask_and_mask (v : UInt64) (w : Width) : v &&& w.mask &&& w.mask = v &&& w.mask := by
  rw [UInt64.and_assoc, UInt64.and_self]

/-- What is cut off before a sum is cut off behind it as well. -/
theorem add_and_mask (u v : UInt64) (w : Width) :
    ((u &&& w.mask) + v) &&& w.mask = (u + v) &&& w.mask := by
  apply UInt64.toNat_inj.1
  simp only [toNat_and_mask, UInt64.toNat_add, Nat.mod_mod_of_dvd _ w.modulus_dvd, Nat.mod_add_mod]

theorem sub_and_mask (u v : UInt64) (w : Width) :
    ((u &&& w.mask) - v) &&& w.mask = (u - v) &&& w.mask := by
  rw [UInt64.sub_eq_add_neg, add_and_mask, UInt64.sub_eq_add_neg]

end Width

/-- Of two parts laid over the same bits of a word the second one shows. -/
theorem overlay_overlay (x u v mask : UInt64) :
    (x &&& ~~~mask ||| u &&& mask) &&& ~~~mask ||| v &&& mask = x &&& ~~~mask ||| v &&& mask := by
  apply UInt64.toBitVec_inj.1
  ext i
  simp only [UInt64.toBitVec_and, UInt64.toBitVec_or, UInt64.toBitVec_not, BitVec.getElem_and,
    BitVec.getElem_or, BitVec.getElem_not]
  cases mask.toBitVec[i] <;> simp

namespace Register

variable {c d : Fin 16} {w : Width}

theorem set_general (c : Fin 16) (w : Width) (f : RegisterFile) (v : UInt64) :
    (general c w).set f v = f.writeGeneral c w v := by
  unfold set
  rw [isHighByte_general]
  rfl

/-- Only the part of a number that fits into the register is written. -/
theorem set_and_mask (c : Fin 16) (w : Width) (f : RegisterFile) (v : UInt64) :
    (general c w).set f (v &&& w.mask) = (general c w).set f v := by
  have hall (v : UInt64) : v &&& 0xFFFF_FFFF_FFFF_FFFF = v := UInt64.and_neg_one
  rw [set_general, set_general]
  unfold RegisterFile.writeGeneral
  cases w <;> simp [Width.mask, UInt64.and_assoc, hall]

/-- Of two writes to a register the second one counts. -/
theorem set_set_general (c : Fin 16) (w : Width) (f : RegisterFile) (u v : UInt64) :
    (general c w).set ((general c w).set f u) v = (general c w).set f v := by
  rw [set_general, set_general, set_general]
  unfold RegisterFile.writeGeneral
  cases w <;> simp [Width.mask, overlay_overlay]

/-- A write replaces one slot by what its old contents and the number make of it. -/
theorem exists_set_general (c : Fin 16) (w : Width) (v : UInt64) : ∃ new : UInt64 → UInt64,
    ∀ f, (general c w).set f v = { f with
      slots := f.slots.set (RegisterFile.generalSlot c)
        (new (f.slots.get (RegisterFile.generalSlot c))) (RegisterFile.generalSlot c).isLt } := by
  cases w with
  | byte | word => exact ⟨fun old => (old &&& ~~~_) ||| (v &&& _), fun f => set_general c _ f v⟩
  | dword => exact ⟨fun _ => v &&& 0xFFFF_FFFF, fun f => set_general c _ f v⟩
  | qword | xmm | ymm => exact ⟨fun _ => v, fun f => set_general c _ f v⟩

/-- Writes to two registers may change places. -/
theorem set_comm_general (h : c ≠ d) (f : RegisterFile) (u v : UInt64) :
    (general c w).set ((general d w).set f u) v = (general d w).set ((general c w).set f v) u := by
  have hslot : (RegisterFile.generalSlot c).val ≠ (RegisterFile.generalSlot d).val :=
    fun e => h (Fin.ext e)
  have hget (slots : Vector UInt64 32) (i : Fin 32) : slots.get i = slots[i.val] := rfl
  obtain ⟨p, hp⟩ := exists_set_general c w v
  obtain ⟨q, hq⟩ := exists_set_general d w u
  rw [hp, hq, hq, hp]
  simp only [hget, Vector.getElem_set_ne _ _ hslot, Vector.getElem_set_ne _ _ hslot.symm]
  rw [Vector.set_comm _ _ hslot]

end Register

namespace Machine

@[simp] theorem get_set_general_self (m : Machine) (c : Fin 16) (w : Width) (v : UInt64) :
    (m.set (.general c w) v).get (.general c w) = v &&& w.mask :=
  Register.fetch_set_general c w m.registers v

@[simp] theorem get_set_general_ne {c d : Fin 16} (h : c ≠ d) (m : Machine) (w w' : Width)
    (v : UInt64) : (m.set (.general d w') v).get (.general c w) = m.get (.general c w) :=
  Register.fetch_set_of_slot_ne (q := .general c w) (by simpa [Fin.ext_iff] using h) m.registers v

theorem set_set_general (m : Machine) (c : Fin 16) (w : Width) (u v : UInt64) :
    (m.set (.general c w) u).set (.general c w) v = m.set (.general c w) v :=
  congrArg (fun registers => ({ m with registers } : Machine))
    (Register.set_set_general c w m.registers u v)

theorem set_comm_general {c d : Fin 16} (h : c ≠ d) (m : Machine) (w : Width) (u v : UInt64) :
    (m.set (.general d w) u).set (.general c w) v = (m.set (.general c w) v).set (.general d w) u :=
  congrArg (fun registers => ({ m with registers } : Machine))
    (Register.set_comm_general h m.registers u v)

end Machine

namespace StringOp

variable {op : StringOp} {m : Machine} {r : Register} {j k a b : Nat}

/-- The operation is repeated, a comparison while its elements are equal or while they are not. -/
def Repeats (op : StringOp) (whileEqual : Bool) : Prop :=
  op.repetition = some (if whileEqual then .whileEqual else .whileUnequal)

theorem execute_of_repeats {whileEqual : Bool} (h : op.Repeats whileEqual) (m : Machine) :
    op.execute m = op.repeated whileEqual m := by
  unfold execute
  rw [h]
  cases whileEqual <;> rfl

@[simp] theorem source_eq (op : StringOp) : op.source = .general 6 op.pointerWidth := rfl

@[simp] theorem destination_eq (op : StringOp) : op.destination = .general 7 op.pointerWidth := rfl

@[simp] theorem counter_eq (op : StringOp) : op.counter = .general 1 op.pointerWidth := rfl

def indexes (op : StringOp) : List Register :=
  match op.kind with
  | .move | .compare => [op.source, op.destination]
  | .store | .scan => [op.destination]
  | .load => [op.source]

/-- An index moved on by `k` elements, in the direction that the flag says. -/
def index (op : StringOp) (r : Register) (k : Nat) (m : Machine) : UInt64 :=
  let distance := UInt64.ofNat (k * op.width.bytes)
  (if isOn m.flags.direction then m.get r - distance else m.get r + distance) &&&
    op.pointerWidth.mask

def onward (op : StringOp) (k : Nat) (m : Machine) : Machine :=
  op.indexes.foldl (fun n r => n.set r (op.index r k m)) m

/-- The machine behind `k` elements, with `left` more to come. -/
def past (op : StringOp) (k left : Nat) (m : Machine) : Machine :=
  (op.onward k m).set op.counter (UInt64.ofNat left)

/-- Where an index has come to after more elements. -/
theorem index_add {n : Machine} (hr : n.get r = op.index r k m)
    (hd : n.flags.direction = m.flags.direction) (j : Nat) :
    op.index r j n = op.index r (k + j) m := by
  have hsub (u v t : UInt64) : u - v - t = u - (v + t) := by grind
  unfold index at hr ⊢
  rw [hr, hd, Nat.add_mul, UInt64.ofNat_add]
  dsimp only
  split_ifs
  · rw [Width.sub_and_mask, hsub]
  · rw [Width.add_and_mask, UInt64.add_assoc]

theorem index_zero (op : StringOp) (c : Fin 16) (m : Machine) :
    op.index (.general c op.pointerWidth) 0 m = m.get (.general c op.pointerWidth) := by
  unfold index
  rw [Nat.zero_mul]
  have h0 : UInt64.ofNat 0 = 0 := rfl
  simp only [h0, UInt64.sub_zero, UInt64.add_zero, ite_self]
  exact Arithmetic.and_mask_of_lt (m.get_general_lt c op.pointerWidth)

theorem advance_eq (op : StringOp) (c : Fin 16) (m : Machine) :
    op.advance (.general c op.pointerWidth) m =
      m.set (.general c op.pointerWidth) (op.index (.general c op.pointerWidth) 1 m) := by
  unfold advance index Machine.set
  rw [Nat.one_mul, Register.set_and_mask]

/-! The machine behind some elements. -/

theorem indexes_eq (op : StringOp) : op.indexes = [op.source, op.destination] ∨
    op.indexes = [op.destination] ∨ op.indexes = [op.source] := by
  unfold indexes
  cases op.kind <;> simp

/-- Only registers are different. -/
theorem past_eq (op : StringOp) (k left : Nat) (m : Machine) :
    op.past k left m = { m with registers := (op.past k left m).registers } := by
  unfold past onward
  obtain h | h | h := op.indexes_eq <;> rw [h] <;> rfl

/-- What the machine behind some elements holds in an index. -/
theorem get_past (hr : r ∈ op.indexes) (k left : Nat) (m : Machine) :
    (op.past k left m).get r = op.index r k m := by
  have hmask (r : Register) : op.index r k m &&& op.pointerWidth.mask = op.index r k m := by
    unfold index
    rw [Width.and_mask_and_mask]
  unfold past onward
  obtain h | h | h := op.indexes_eq <;> rw [h] at hr ⊢ <;>
    simp only [List.mem_cons, List.not_mem_nil, or_false] at hr
  · obtain rfl | rfl := hr <;> simp [hmask]
  · subst hr
    simp [hmask]
  · subst hr
    simp [hmask]

/-- Every other register is as it was. -/
theorem get_past_of_slot_ne {q : Register} (hc : q.slot ≠ op.counter.slot)
    (hi : ∀ r ∈ op.indexes, q.slot ≠ r.slot) (k left : Nat) (m : Machine) :
    (op.past k left m).get q = m.get q := by
  have hset {r : Register} (h : q.slot ≠ r.slot) (n : Machine) (v : UInt64) :
      (n.set r v).get q = n.get q := Register.fetch_set_of_slot_ne h n.registers v
  unfold past onward
  rw [hset hc]
  obtain h | h | h := op.indexes_eq <;> rw [h] at hi ⊢ <;>
    simp only [List.forall_mem_cons] at hi <;> simp only [List.foldl_cons, List.foldl_nil]
  · rw [hset hi.2.1, hset hi.1]
  · rw [hset hi.1]
  · rw [hset hi.1]

theorem flags_past (op : StringOp) (k left : Nat) (m : Machine) :
    (op.past k left m).flags = m.flags := by rw [past_eq]

theorem memory_past (op : StringOp) (k left : Nat) (m : Machine) :
    (op.past k left m).memory = m.memory := by rw [past_eq]

theorem index_past (hr : r ∈ op.indexes) (j k left : Nat) (m : Machine) :
    op.index r j (op.past k left m) = op.index r (k + j) m :=
  index_add (get_past hr k left m) (by rw [flags_past]) j

/-- Some elements and then some more are all of them at once. -/
theorem past_past (op : StringOp) (j b k a : Nat) (m : Machine) :
    op.past j b (op.past k a m) = op.past (k + j) b m := by
  have hindex : ∀ r ∈ op.indexes, op.index r j (op.past k a m) = op.index r (k + j) m :=
    fun r hr => index_past hr j k a m
  -- later writes are moved in front of earlier ones, up to the register that they overwrite
  have h61 := @Machine.set_comm_general 6 1 (by decide)
  have h71 := @Machine.set_comm_general 7 1 (by decide)
  have h67 := @Machine.set_comm_general 6 7 (by decide)
  rw [past, onward]
  obtain h | h | h := op.indexes_eq <;> rw [h] at hindex ⊢ <;>
    simp only [List.forall_mem_cons] at hindex
  · simp only [List.foldl_cons, List.foldl_nil, hindex.1, hindex.2.1]
    simp [past, onward, h, h61, h71, h67, Machine.set_set_general]
  · simp only [List.foldl_cons, List.foldl_nil, hindex.1]
    simp [past, onward, h, h71, Machine.set_set_general]
  · simp only [List.foldl_cons, List.foldl_nil, hindex.1]
    simp [past, onward, h, h61, Machine.set_set_general]

theorem index_set_counter (hr : r ∈ op.indexes) (k : Nat) (m : Machine) (v : UInt64) :
    op.index r k (m.set op.counter v) = op.index r k m := by
  have hget : (m.set op.counter v).get r = m.get r := by
    obtain h | h | h := op.indexes_eq <;> rw [h] at hr <;>
      simp only [List.mem_cons, List.not_mem_nil, or_false] at hr
    · obtain rfl | rfl := hr <;> simp
    · subst hr
      simp
    · subst hr
      simp
  unfold index
  rw [hget]
  rfl

/-- What was in the counter does not matter behind some elements. -/
theorem past_set_counter (op : StringOp) (k left : Nat) (m : Machine) (v : UInt64) :
    op.past k left (m.set op.counter v) = op.past k left m := by
  have hindex : ∀ r ∈ op.indexes, op.index r k (m.set op.counter v) = op.index r k m :=
    fun r hr => index_set_counter hr k m v
  have h61 := @Machine.set_comm_general 6 1 (by decide)
  have h71 := @Machine.set_comm_general 7 1 (by decide)
  unfold past onward
  obtain h | h | h := op.indexes_eq <;> rw [h] at hindex ⊢ <;>
    simp only [List.forall_mem_cons] at hindex
  · simp only [List.foldl_cons, List.foldl_nil, hindex.1, hindex.2.1]
    simp [h61, h71, Machine.set_set_general]
  · simp only [List.foldl_cons, List.foldl_nil, hindex.1]
    simp [h71, Machine.set_set_general]
  · simp only [List.foldl_cons, List.foldl_nil, hindex.1]
    simp [h61, Machine.set_set_general]

/-! One element in memory that is not strict. -/

def item (op : StringOp) (r : Register) (i : Nat) (m : Machine) : Element :=
  ⟨op.index r i m, op.width⟩

/-- The bytes that the operation puts into its `i`th element. -/
def given (op : StringOp) (i : Nat) (m : Machine) : List UInt8 :=
  if op.kind = .move then (op.item op.source i m).bytes m.memory
  else LittleEndian.ofWord op.width.wordBytes (m.get (.accumulator op.width))

def compared (op : StringOp) (i : Nat) (m : Machine) : UInt64 × UInt64 :=
  (if op.kind = .compare then (op.item op.source i m).value m.memory
    else m.get (.accumulator op.width),
   (op.item op.destination i m).value m.memory)

def outcome (op : StringOp) (i : Nat) (m : Machine) : Flags :=
  (Arithmetic.sub (op.compared i m).1 (op.compared i m).2 false op.width).2

theorem index_congr {n : Machine} (hr : n.get r = m.get r)
    (hd : n.flags.direction = m.flags.direction) (k : Nat) : op.index r k n = op.index r k m := by
  unfold index
  rw [hr, hd]

theorem advance_advance (op : StringOp) (m : Machine) :
    op.advance op.destination (op.advance op.source m) =
      (m.set op.source (op.index op.source 1 m)).set op.destination
        (op.index op.destination 1 m) := by
  have hindex (v : UInt64) : op.index op.destination 1 (m.set op.source v) =
      op.index op.destination 1 m :=
    index_congr (m.get_set_general_ne (by decide) _ _ v) rfl 1
  rw [source_eq, destination_eq, advance_eq, advance_eq, ← source_eq, ← destination_eq, hindex]

theorem element_of_compares (hk : op.kind.compares = true) (hm : m.memory.strict = false) :
    op.element m = .ok (op.onward 1 (m.define (op.outcome 0 m))) := by
  have hread (a : UInt64) : m.readWord a op.width = .ok (Element.value ⟨a, op.width⟩ m.memory) :=
    Memory.readWord_of_lenient hm a op.width
  unfold element onward outcome compared indexes item
  cases hkind : op.kind with
  | move | store | load => rw [hkind] at hk; cases hk
  | compare =>
    simp only [hread, ok_bind, source_eq, destination_eq, index_zero, if_true]
    rw [← source_eq, ← destination_eq, advance_advance]
    rfl
  | scan =>
    simp only [hread, ok_bind, destination_eq, index_zero, advance_eq, reduceCtorEq, if_false]
    rfl

theorem element_of_writes (hk : op.kind = .move ∨ op.kind = .store) (hm : m.memory.strict = false) :
    op.element m = .ok (op.onward 1 (m.write (m.get op.destination) (op.given 0 m))) := by
  have hread (a : UInt64) : m.readWord a op.width = .ok (Element.value ⟨a, op.width⟩ m.memory) :=
    Memory.readWord_of_lenient hm a op.width
  unfold element onward given indexes item
  obtain hkind | hkind := hk
  · simp only [hkind, hread, ok_bind, source_eq, destination_eq, index_zero, if_true]
    rw [← source_eq, ← destination_eq, advance_advance, ← Memory.ofWord_value]
    rfl
  · simp only [hkind, destination_eq, advance_eq, reduceCtorEq, if_false]
    rfl

/-- What the registers are behind some elements depends on the registers and the direction. -/
theorem registers_past_congr {n : Machine} (hr : n.registers = m.registers)
    (hd : n.flags.direction = m.flags.direction) (op : StringOp) (k left : Nat) :
    (op.past k left n).registers = (op.past k left m).registers := by
  have hindex (r : Register) : op.index r k n = op.index r k m :=
    index_congr (by unfold Machine.get; rw [hr]) hd k
  unfold past onward Machine.set
  obtain h | h | h := op.indexes_eq <;>
    simp only [h, List.foldl_cons, List.foldl_nil, hindex, hr]

theorem past_define (op : StringOp) (k left i : Nat) (n m : Machine) :
    op.past k left (m.define (op.outcome i n)) = (op.past k left m).define (op.outcome i n) := by
  have hregisters : (op.past k left (m.define (op.outcome i n))).registers =
      (op.past k left m).registers :=
    registers_past_congr (n := m.define _) (m := m) rfl rfl op k left
  rw [past_eq, hregisters, past_eq op k left m]
  rfl

theorem past_write (op : StringOp) (k left : Nat) (m : Machine) (a : UInt64) (bytes : List UInt8) :
    op.past k left (m.write a bytes) = (op.past k left m).write a bytes := by
  have hregisters : (op.past k left (m.write a bytes)).registers = (op.past k left m).registers :=
    registers_past_congr (n := m.write a bytes) (m := m) rfl rfl op k left
  rw [past_eq, hregisters, past_eq op k left m]
  rfl

theorem past_moveTo (op : StringOp) (k left : Nat) (m : Machine) (a : UInt64) :
    op.past k left { m with ip := a } = { op.past k left m with ip := a } := by
  have hregisters : (op.past k left { m with ip := a }).registers = (op.past k left m).registers :=
    registers_past_congr (n := { m with ip := a }) (m := m) rfl rfl op k left
  rw [past_eq, hregisters, past_eq op k left m]

/-- Of two comparisons the second one decides the flags. -/
theorem define_outcome (op : StringOp) (i j : Nat) (k n m : Machine) :
    (m.define (op.outcome i k)).define (op.outcome j n) = m.define (op.outcome j n) := by
  unfold Machine.define
  rw [Flags.overlap_assoc]
  rfl

end StringOp

end LongMode

import LongMode.Proofs.Execute.Repetition
import LongMode.Proofs.Run.Step
/-!
Blocks of elements stored or moved by a repetition. In a block of less than the whole address space
every byte belongs to one element, wherever the block starts and in whichever direction it goes on;
so what is stored in an element is not stored over later, and what has not been moved yet is still
there.
-/

namespace LongMode

namespace StringOp

variable {op : StringOp} {m n : Machine} {r : Register} {x : UInt64} {i k : Nat}

/-- The place of a byte in the block that starts at an index, counted in the direction that the flag
says from the byte of the first element that comes first in this direction. -/
def offset (op : StringOp) (r : Register) (x : UInt64) (m : Machine) : Nat :=
  if isOn m.flags.direction then (m.get r + UInt64.ofNat (op.width.bytes - 1) - x).toNat
  else (x - m.get r).toNat

theorem index_qword (h64 : op.pointerWidth = .qword) (r : Register) (i : Nat) (m : Machine) :
    op.index r i m = if isOn m.flags.direction then m.get r - UInt64.ofNat (i * op.width.bytes)
      else m.get r + UInt64.ofNat (i * op.width.bytes) := by
  have hall (v : UInt64) : v &&& 0xFFFF_FFFF_FFFF_FFFF = v := UInt64.and_neg_one
  unfold index
  rw [h64]
  exact hall _

theorem offset_of_up (hd : isOn m.flags.direction = false) (op : StringOp) (r : Register)
    (x : UInt64) : op.offset r x m = (x - m.get r).toNat := by
  unfold offset
  rw [hd]
  rfl

/-- A byte belongs to the element that its place says. -/
theorem covers_item_iff (h64 : op.pointerWidth = .qword) (hw : op.width.bytes ≤ 8)
    (hi : (i + 1) * op.width.bytes ≤ 2 ^ 64) :
    (op.item r i m).Covers x ↔ op.offset r x m / op.width.bytes = i := by
  have hbytes : op.width.wordBytes = op.width.bytes := Nat.min_eq_left hw
  have hpos := op.width.bytes_pos
  rw [Nat.add_mul, Nat.one_mul] at hi
  have hd : (UInt64.ofNat (i * op.width.bytes)).toNat = i * op.width.bytes :=
    UInt64.toNat_ofNat_of_lt' (by show _ < 2 ^ 64; omega)
  have hs : (UInt64.ofNat (op.width.bytes - 1)).toNat = op.width.bytes - 1 :=
    UInt64.toNat_ofNat_of_lt' (by show _ < 2 ^ 64; omega)
  have hx := x.toNat_lt
  have hr := (m.get r).toNat_lt
  rw [Nat.div_eq_iff hpos]
  unfold Element.Covers item offset
  rw [index_qword h64]
  dsimp only
  rw [hbytes]
  generalize i * op.width.bytes = t at hi hd ⊢
  split_ifs
  · simp only [UInt64.toNat_sub, UInt64.toNat_add, hd, hs]
    omega
  · simp only [UInt64.toNat_sub, UInt64.toNat_add, hd]
    omega

/-- Two elements of a block have no byte in common. -/
theorem apart_item (h64 : op.pointerWidth = .qword) (hw : op.width.bytes ≤ 8) {j : Nat}
    (hi : (i + 1) * op.width.bytes ≤ 2 ^ 64) (hj : (j + 1) * op.width.bytes ≤ 2 ^ 64)
    (hij : i ≠ j) : (op.item r i m).Apart (op.item r j m) := by
  intro x hx hx'
  rw [covers_item_iff h64 hw hi] at hx
  rw [covers_item_iff h64 hw hj] at hx'
  exact hij (hx.symm.trans hx')

/-- What a repetition makes of `m` that stores in `n` elements: in the `i`th of them the bytes
`bytes i` stand, no other byte has changed, and the indexes and the counter are behind all of
them. -/
structure Fills (op : StringOp) (n : Nat) (bytes : Nat → List UInt8) (m after : Machine) :
    Prop where
  stored : ∀ i < n, after.memory.Stores (op.index op.destination i m) (bytes i)
  others : ∀ x, (∀ i < n, ¬ (op.item op.destination i m).Covers x) →
    after.memory.cells[x]? = m.memory.cells[x]?
  rest : after = { op.past n 0 m with memory := { m.memory with cells := after.memory.cells } }

/-- The operation stores in every element, and in blocks of `n` elements it does not store over one
that is still to be read. -/
structure Stores (op : StringOp) (n : Nat) (m : Machine) : Prop where
  kind : op.kind = .move ∨ op.kind = .store
  pointerWidth : op.pointerWidth = .qword
  width : op.width.bytes ≤ 8
  length : n * op.width.bytes ≤ 2 ^ 64
  lenient : m.memory.strict = false
  apart : op.kind = .move → ∀ i < n, ∀ j < n,
    (op.item op.destination i m).Apart (op.item op.source j m)

def first (op : StringOp) (left : Nat) (m : Machine) : Machine :=
  op.past 1 left (m.write (m.get op.destination) (op.given 0 m))

theorem length_given (op : StringOp) (i : Nat) (m : Machine) :
    (op.given i m).length = op.width.wordBytes := by
  unfold given
  split_ifs
  · exact Memory.length_dump _ _ _
  · exact LittleEndian.length_ofWord _ _

theorem getElem?_given (hk : op.kind = .move) {j : Nat} (hj : j < op.width.wordBytes) (i : Nat)
    (m : Machine) : (op.given i m)[j]? =
      some (m.memory.peek (op.index op.source i m + UInt64.ofNat j)) := by
  unfold given
  rw [if_pos hk]
  exact Memory.getElem?_dump _ _ hj

theorem item_zero (op : StringOp) (m : Machine) :
    op.item op.destination 0 m = ⟨m.get op.destination, op.width⟩ :=
  congrArg (Element.mk · _) (op.index_zero 7 m)

theorem index_first (hr : r ∈ op.indexes) (i left : Nat) (m : Machine) :
    op.index r i (op.first left m) = op.index r (i + 1) m := by
  rw [first, index_past hr, Nat.add_comm]
  rfl

theorem cells_first (left : Nat) (h : ¬ (op.item op.destination 0 m).Covers x) :
    (op.first left m).memory.cells[x]? = m.memory.cells[x]? := by
  rw [item_zero] at h
  rw [first, memory_past]
  exact Memory.getElem?_cells_of_not_covers (e := ⟨m.get op.destination, op.width⟩)
    (op.length_given 0 m) h m.memory

namespace Stores

theorem indexes (h : op.Stores k m) : op.destination ∈ op.indexes ∧
    (op.kind = .move → op.source ∈ op.indexes) := by
  unfold StringOp.indexes
  obtain hk | hk := h.kind <;> simp [hk]

theorem fits (h : op.Stores k m) (hi : i < k) : (i + 1) * op.width.bytes ≤ 2 ^ 64 :=
  (Nat.mul_le_mul_right _ hi).trans h.length

theorem first (h : op.Stores (k + 1) m) : op.Stores k (op.first k m) where
  kind := h.kind
  pointerWidth := h.pointerWidth
  width := h.width
  length := (Nat.mul_le_mul_right _ k.le_succ).trans h.length
  lenient := by
    rw [StringOp.first, memory_past]
    exact (Memory.entry_write _ _ _).2.2.trans h.lenient
  apart hmove i hi j hj := by
    unfold item
    rw [index_first h.indexes.1, index_first (h.indexes.2 hmove)]
    exact h.apart hmove (i + 1) (by omega) (j + 1) (by omega)

/-- The first element does not change what is put into the others. -/
theorem given_first (h : op.Stores (k + 1) m) (hi : i < k) :
    op.given i (op.first k m) = op.given (i + 1) m := by
  unfold given
  split_ifs with hmove
  · have hitem : op.item op.source i (op.first k m) = op.item op.source (i + 1) m :=
      congrArg (Element.mk · _) (index_first (h.indexes.2 hmove) i k m)
    rw [hitem]
    refine Memory.bytes_congr fun x hx => cells_first k fun hx' => ?_
    exact h.apart hmove 0 (by omega) (i + 1) (by omega) x hx' hx
  · have hget : (op.first k m).get (.accumulator op.width) = m.get (.accumulator op.width) := by
      refine get_past_of_slot_ne (by simp [Register.accumulator]) ?_ 1 k _
      obtain h | h | h := op.indexes_eq <;> simp [h, Register.accumulator]
    rw [hget]

end Stores

/-- A 64-bit index that is written back does not change. -/
theorem past_zero (h64 : op.pointerWidth = .qword) {left : Nat}
    (hcount : (m.get op.counter).toNat = left) : op.past 0 left m = m := by
  have hset (c : Fin 16) : m.set (.general c .qword) (m.get (.general c .qword)) = m :=
    congrArg (fun registers => ({ m with registers } : Machine))
      (Register.set_fetch_qword c m.registers)
  have hindex (c : Fin 16) : op.index (.general c .qword) 0 m = m.get (.general c .qword) := by
    rw [← h64]
    exact op.index_zero c m
  have hcounter : UInt64.ofNat left = m.get (.general 1 .qword) := by
    rw [counter_eq, h64] at hcount
    rw [← hcount, UInt64.ofNat_toNat]
  unfold past onward
  obtain h | h | h := op.indexes_eq <;> simp [h, h64, hindex, hset, hcounter]

/-- A repetition over no element does nothing. -/
theorem fills_zero (h64 : op.pointerWidth = .qword) (hcount : (m.get op.counter).toNat = 0)
    (bytes : Nat → List UInt8) : op.Fills 0 bytes m m where
  stored := by simp
  others := by simp
  rest := by rw [past_zero h64 hcount]

/-- The first element is stored and stays, since the others are apart from it. -/
theorem Fills.succ (h : op.Stores (k + 1) m) (hfills : op.Fills k
      (fun i => op.given i (op.first k m)) (op.first k m) n) :
    op.Fills (k + 1) (fun i => op.given i m) m n := by
  have hitem (i : Nat) : op.item op.destination i (op.first k m) =
      op.item op.destination (i + 1) m := congrArg (Element.mk · _) (index_first h.indexes.1 i k m)
  constructor
  case stored =>
    rintro (_ | i) hi
    · have hstores : (op.first k m).memory.Stores (op.item op.destination 0 m).address
          (op.given 0 m) := by
        rw [first, memory_past, item_zero]
        exact Memory.stores_write m.memory _ (by
          have := Memory.wordBytes_le op.width
          rw [length_given]
          omega)
      refine hstores.congr (op.length_given 0 m) fun x hx => hfills.others x fun i hi hx' => ?_
      rw [hitem] at hx'
      exact apart_item h.pointerWidth h.width (h.fits (by omega)) (h.fits (by omega))
        (Nat.succ_ne_zero i).symm x hx hx'
    · have hstored := hfills.stored i (by omega)
      rw [index_first h.indexes.1, h.given_first (by omega)] at hstored
      exact hstored
  case others =>
    intro x hx
    rw [hfills.others x fun i hi => ?_, cells_first k (hx 0 (by omega))]
    rw [hitem]
    exact hx (i + 1) (by omega)
  case rest =>
    have hgrows := Memory.Grows.write m.memory (m.get op.destination) (op.given 0 m)
    have hpast : op.past k 0 (op.first k m) =
        (op.past (k + 1) 0 m).write (m.get op.destination) (op.given 0 m) := by
      rw [first, past_past, past_write, Nat.add_comm]
    have hmemory : ({ (op.first k m).memory with cells := n.memory.cells } : Memory) =
        { m.memory with cells := n.memory.cells } := by
      rw [first, memory_past]
      exact Memory.ext rfl hgrows.segments hgrows.codeEnd hgrows.strict
    refine hfills.rest.trans ?_
    rw [hpast, hmemory]
    rfl

/-- A repetition that stores fills its block. -/
theorem repeated_fills (h : op.Stores k m) (hcount : (m.get op.counter).toNat = k)
    (whileEqual : Bool) : ∃ after, op.repeated whileEqual m = .done after ∧
      op.Fills k (fun i => op.given i m) m after := by
  induction k generalizing m with
  | zero => exact ⟨m, repeated_zero hcount whileEqual, fills_zero h.pointerWidth hcount _⟩
  | succ k ih =>
    have hcount' : ((op.first k m).get op.counter).toNat = k := get_set_counter hcount _
    obtain ⟨after, hrepeated, hfills⟩ := ih h.first hcount'
    refine ⟨after, ?_, hfills.succ h⟩
    have hstops (n : Machine) : op.stops whileEqual n = false := by
      unfold stops
      obtain hk | hk := h.kind <;> rw [hk] <;> rfl
    rw [repeated_succ hcount, element_of_writes h.kind h.lenient]
    dsimp only
    rw [hstops, if_neg Bool.false_ne_true]
    exact hrepeated

/-! Where the instruction is does not matter, nor what was in the counter before. -/

theorem Fills.moved {a : UInt64} {bytes : Nat → List UInt8}
    (h : op.Fills k bytes { m with ip := a } n) (b : UInt64) :
    op.Fills k bytes { m with ip := b } { n with ip := b } where
  stored := h.stored
  others := h.others
  rest := by
    have hrest := congrArg (fun n : Machine => { n with ip := b }) h.rest
    rw [past_moveTo] at hrest ⊢
    exact hrest

theorem Stores.set_counter (h : op.Stores k m) (v : UInt64) : op.Stores k (m.set op.counter v) where
  kind := h.kind
  pointerWidth := h.pointerWidth
  width := h.width
  length := h.length
  lenient := h.lenient
  apart hmove i hi j hj := by
    unfold item
    rw [index_set_counter h.indexes.1, index_set_counter (h.indexes.2 hmove)]
    exact h.apart hmove i hi j hj

theorem Stores.given_set_counter (h : op.Stores k m) (i : Nat) (v : UInt64) :
    op.given i (m.set op.counter v) = op.given i m := by
  unfold given item
  split_ifs with hmove
  · rw [index_set_counter (h.indexes.2 hmove)]
    rfl
  · have hget : (m.set op.counter v).get (.accumulator op.width) =
        m.get (.accumulator op.width) := m.get_set_general_ne (by decide) _ _ v
    rw [hget]

theorem Fills.of_set_counter {v : UInt64} {bytes : Nat → List UInt8} (h : op.Stores k m)
    (hfills : op.Fills k bytes (m.set op.counter v) n) : op.Fills k bytes m n where
  stored i hi := by
    rw [← index_set_counter h.indexes.1 i m v]
    exact hfills.stored i hi
  others x hx := by
    refine hfills.others x fun i hi => ?_
    unfold item
    rw [index_set_counter h.indexes.1]
    exact hx i hi
  rest := by
    have hrest := hfills.rest
    rw [past_set_counter] at hrest
    exact hrest

/-! Quadwords moved as bytes. -/

structure QuadsAndBytes (quads bytes : StringOp) : Prop where
  kinds : quads.kind = .move ∧ bytes.kind = .move
  pointerWidths : quads.pointerWidth = .qword ∧ bytes.pointerWidth = .qword
  widths : quads.width = .qword ∧ bytes.width = .byte

namespace QuadsAndBytes

variable {quads bytes : StringOp} (h : quads.QuadsAndBytes bytes)

include h

theorem registers_eq : bytes.source = quads.source ∧ bytes.destination = quads.destination ∧
    bytes.counter = quads.counter := by
  simp [h.pointerWidths]

/-- A byte of a quadword is an element of its own. -/
theorem index_eq (hd : isOn m.flags.direction = false) (r : Register) (i j : Nat) :
    bytes.index r (8 * i + j) m = quads.index r i m + UInt64.ofNat j := by
  have hdistance : (8 * i + j) * Width.byte.bytes = i * Width.qword.bytes + j := by
    simp only [Width.bytes]
    omega
  rw [index_qword h.pointerWidths.1, index_qword h.pointerWidths.2, h.widths.1, h.widths.2, hd,
    hdistance, UInt64.ofNat_add, ← UInt64.add_assoc]
  rfl

theorem covers_quad (hd : isOn m.flags.direction = false) (hk : 8 * k ≤ 2 ^ 64) (hi : i < 8 * k)
    (hx : (bytes.item r i m).Covers x) : (quads.item r (i / 8) m).Covers x := by
  obtain ⟨hwidth, hwidth'⟩ := h.widths
  rw [covers_item_iff h.pointerWidths.2 (by rw [hwidth']; decide)
    (by rw [hwidth']; simp only [Width.bytes]; omega), offset_of_up hd, hwidth'] at hx
  rw [covers_item_iff h.pointerWidths.1 (by rw [hwidth]; decide)
    (by rw [hwidth]; simp only [Width.bytes]; omega), offset_of_up hd, hwidth]
  simp only [Width.bytes] at hx ⊢
  omega

theorem length_le (hquads : quads.Stores k m) : 8 * k ≤ 2 ^ 64 := by
  have hlength := hquads.length
  rw [h.widths.1] at hlength
  simp only [Width.bytes] at hlength
  omega

theorem stores (hd : isOn m.flags.direction = false) (hquads : quads.Stores k m) :
    bytes.Stores (8 * k) m := by
  have hlength := h.length_le hquads
  obtain ⟨hsource, hdestination, -⟩ := h.registers_eq
  constructor
  case kind => exact .inl h.kinds.2
  case pointerWidth => exact h.pointerWidths.2
  case width => rw [h.widths.2]; decide
  case length => rw [h.widths.2]; simp only [Width.bytes]; omega
  case lenient => exact hquads.lenient
  case apart =>
    intro _ i hi j hj x hx hx'
    rw [hdestination] at hx
    rw [hsource] at hx'
    exact hquads.apart h.kinds.1 (i / 8) (by omega) (j / 8) (by omega) x
      (h.covers_quad hd (by omega) hi hx) (h.covers_quad hd (by omega) hj hx')

/-- The bytes moved one by one are those of the quadwords. -/
theorem cells_eq (hd : isOn m.flags.direction = false) (hquads : quads.Stores k m)
    {after after' : Machine} (hafter : quads.Fills k (fun i => quads.given i m) m after)
    (hafter' : bytes.Fills (8 * k) (fun i => bytes.given i m) m after') :
    after'.memory.cells = after.memory.cells := by
  obtain ⟨hsource, hdestination, -⟩ := h.registers_eq
  have hlength := h.length_le hquads
  refine Std.ExtTreeMap.ext_getElem? fun x => ?_
  by_cases hx : quads.offset quads.destination x m < 8 * k
  · rw [offset_of_up hd] at hx
    generalize ho : (x - m.get quads.destination).toNat = o at hx
    have hsplit (r : Register) :
        bytes.index r o m = quads.index r (o / 8) m + UInt64.ofNat (o % 8) := by
      rw [← h.index_eq hd, Nat.div_add_mod]
    have hplace : bytes.index bytes.destination o m = x := by
      rw [index_qword h.pointerWidths.2, hd, hdestination, h.widths.2, ← ho]
      exact (congrArg _ (congrArg _ (Nat.mul_one _))).trans (Memory.add_offset _ x)
    have hbyte := hafter'.stored o hx 0 _
      (getElem?_given h.kinds.2 (by rw [h.widths.2]; decide) o m)
    have hquad := hafter.stored (o / 8) (by omega) (o % 8) _
      (getElem?_given h.kinds.1 (by rw [h.widths.1]; exact Nat.mod_lt _ (by decide)) (o / 8) m)
    have h0 (a : UInt64) : a + UInt64.ofNat 0 = a := UInt64.add_zero a
    rw [h0, h0, hplace, hsource, hsplit] at hbyte
    rw [← hsplit, ← hdestination, hplace] at hquad
    rw [hbyte, hquad]
  · have hquads' : ∀ i < k, ¬ (quads.item quads.destination i m).Covers x := by
      intro i hi hcovers
      rw [covers_item_iff h.pointerWidths.1 hquads.width (hquads.fits hi), h.widths.1] at hcovers
      simp only [Width.bytes] at hcovers
      omega
    have hbytes : ∀ i < 8 * k, ¬ (bytes.item bytes.destination i m).Covers x := by
      intro i hi hcovers
      rw [hdestination] at hcovers
      exact hquads' (i / 8) (by omega) (h.covers_quad hd (by omega) hi hcovers)
    rw [hafter'.others x hbytes, hafter.others x hquads']

/-- Behind all of them the indexes are the same. -/
theorem past_eq (hd : isOn m.flags.direction = false) (k left : Nat) :
    bytes.past (8 * k) left m = quads.past k left m := by
  obtain ⟨hsource, hdestination, hcounter⟩ := h.registers_eq
  have hindex (r : Register) : bytes.index r (8 * k) m = quads.index r k m := by
    have h0 : UInt64.ofNat 0 = 0 := rfl
    have heq := h.index_eq hd r k 0
    rwa [h0, UInt64.add_zero, Nat.add_zero] at heq
  unfold past onward indexes
  rw [h.kinds.1, h.kinds.2, hcounter, hsource, hdestination]
  simp only [List.foldl_cons, List.foldl_nil, hindex]

/-- Whether they were moved as quadwords or as bytes cannot be seen. -/
theorem eq_of_fills (hd : isOn m.flags.direction = false) (hquads : quads.Stores k m)
    {after after' : Machine} (hafter : quads.Fills k (fun i => quads.given i m) m after)
    (hafter' : bytes.Fills (8 * k) (fun i => bytes.given i m) m after') : after' = after := by
  calc after'
    _ = { bytes.past (8 * k) 0 m with
          memory := { m.memory with cells := after'.memory.cells } } := hafter'.rest
    _ = { quads.past k 0 m with memory := { m.memory with cells := after.memory.cells } } := by
        rw [h.past_eq hd, h.cells_eq hd hquads hafter hafter']
    _ = after := hafter.rest.symm

end QuadsAndBytes

end StringOp

namespace Machine

variable {s : Settings} {m : Machine} {l : Located} {op : StringOp} {whileEqual : Bool}

theorem run_stores (hd : s.disassemble = false) (hc : m.inCode = true) (hl : m.locate = .ok l)
    (hi : l.instruction = some (.string op)) (hr : op.Repeats whileEqual)
    (h : op.Stores (m.get op.counter).toNat { m with ip := l.next }) :
    (m.run s true).stop = .step ∧ op.Fills (m.get op.counter).toNat
      (fun i => op.given i { m with ip := l.next }) { m with ip := l.next }
      (m.run s true).machine := by
  obtain ⟨after, hrepeated, hfills⟩ := StringOp.repeated_fills h rfl whileEqual
  obtain ⟨hstop, hmachine⟩ :=
    run_of_done hl hd hi hc ((op.execute_of_repeats hr _).trans hrepeated)
  rw [hmachine]
  exact ⟨hstop, hfills⟩

/-- A repetition that stores fills its block, and one that moves copies its block where the two
blocks have no byte in common. Quadwords are moved upwards as their bytes are. -/
theorem run_fills (hd : s.disassemble = false) (hc : m.inCode = true) (hl : m.locate = .ok l)
    (hi : l.instruction = some (.string op)) (hr : op.Repeats whileEqual)
    (h64 : op.pointerWidth = .qword) (hm : m.memory.strict = false)
    (hlength : (m.get op.counter).toNat * op.width.bytes < 2 ^ 64) :
    let past := { m with ip := l.next }
    let after := (m.run s true).machine
    let n := (m.get op.counter).toNat
    (op.kind = .store → (m.run s true).stop = .step ∧ op.Fills n
      (fun _ => LittleEndian.ofWord op.width.bytes (m.get (.accumulator op.width))) past after) ∧
    (op.kind = .move →
      (∀ i < n, ∀ j < n, (op.item op.destination i m).Apart (op.item op.source j m)) →
      ((m.run s true).stop = .step ∧ op.Fills n
        (fun i => m.memory.dump (op.index op.source i m) op.width.bytes) past after) ∧
      ∀ (a : UInt64) (k : Located) (bytes : StringOp) (whileEqual' : Bool),
        let other := { m.set op.counter (UInt64.ofNat (8 * n)) with ip := a }
        isOn m.flags.direction = false → op.QuadsAndBytes bytes → bytes.Repeats whileEqual' →
        other.inCode = true → other.locate = .ok k → k.instruction = some (.string bytes) →
        (other.run s true).stop = .step ∧
          (other.run s true).machine = { after with ip := k.next }) := by
  intro past after n
  have hw : op.width.bytes ≤ 8 :=
    ((Located.at?_spans hl).wellFormed _ hi).widths _ (by simp [Instruction.widths])
  have hbytes : op.width.wordBytes = op.width.bytes := Nat.min_eq_left hw
  constructor
  · intro hstore
    have hstores : op.Stores n past := ⟨.inr hstore, h64, hw, hlength.le, hm, fun hmove => by
      rw [hstore] at hmove
      cases hmove⟩
    obtain ⟨hstop, h⟩ := run_stores hd hc hl hi hr hstores
    refine ⟨hstop, ?_⟩
    unfold StringOp.given at h
    simp only [hstore, reduceCtorEq, if_false, hbytes] at h
    exact h
  · intro hmove hapart
    have hstores (a : UInt64) : op.Stores n { m with ip := a } :=
      ⟨.inl hmove, h64, hw, hlength.le, hm, fun _ => hapart⟩
    obtain ⟨hstop, h⟩ := run_stores hd hc hl hi hr (hstores l.next)
    refine ⟨⟨hstop, ?_⟩, ?_⟩
    · unfold StringOp.given StringOp.item Element.bytes at h
      simp only [hmove, if_true, hbytes] at h
      exact h
    · intro a k bytes whileEqual' other hup hboth hrepeats hc' hk hi'
      obtain ⟨-, -, hcounter⟩ := hboth.registers_eq
      let behind : Machine := { m with ip := k.next }
      have hbehind : bytes.Stores (8 * n) behind := hboth.stores hup (hstores k.next)
      have hcount : (other.get bytes.counter).toNat = 8 * n := by
        rw [hboth.widths.1] at hlength
        rw [hcounter]
        refine m.get_set_general ?_
        rw [h64]
        change 8 * (m.get op.counter).toNat < 2 ^ 64
        simp only [Width.bytes] at hlength
        omega
      have hpast : ({ other with ip := k.next } : Machine) =
          behind.set bytes.counter (UInt64.ofNat (8 * n)) := by
        rw [hcounter]
        rfl
      obtain ⟨hstop', hfilled⟩ := run_stores hd hc' hk hi' hrepeats (by
        rw [hcount, hpast]
        exact hbehind.set_counter _)
      rw [hcount, hpast] at hfilled
      simp only [hbehind.given_set_counter] at hfilled
      exact ⟨hstop', hboth.eq_of_fills (m := behind) hup (hstores k.next) (h.moved k.next)
        (hfilled.of_set_counter hbehind)⟩

/-- `REP STOSW` downwards, with the first element at address zero. -/
def fillDown : Machine :=
  { (((ofCode [0x66, 0xF3, 0xAB]).set (.accumulator .word) 0x1234).set (.counter .qword) 2).set
      (.destinationIndex .qword) 0 with
    flags := { Flags.cleared with direction := some true } }

/-- `REP MOVSQ`, and `REP MOVSB` behind it. -/
def copyUp : Machine :=
  (((((ofCode [0xF3, 0x48, 0xA5, 0xF3, 0xA4]).write 0x2000 [1, 2, 3, 4, 5, 6, 7, 8, 9]).set
    (.counter .qword) 2).set (.sourceIndex .qword) 0x2000).set (.destinationIndex .qword) 0x2010)

theorem fillDown_copyUp :
    (fillDown.run .execute true).machine.memory.dump 0xFFFFFFFFFFFFFFFE 2 = [0x34, 0x12] ∧
    (copyUp.run .execute true).machine.memory.dump 0x2018 8 = [9, 0, 0, 0, 0, 0, 0, 0] ∧
    (({ copyUp.set (.counter .qword) 16 with ip := 0x1003 } : Machine).run .execute true).machine =
      { (copyUp.run .execute true).machine with ip := 0x1005 } := by
  have hfill : fillDown.locate = .ok ⟨0x1000,
      { operandSize := true, repetition := some .whileEqual }, .oneByte, 0xAB,
      some (.string ⟨.store, .word, .qword, some .whileEqual, none⟩), 0x1003⟩ := by rfl
  have hcopy : copyUp.locate = .ok ⟨0x1000,
      { repetition := some .whileEqual, rex := some ⟨true, false, false, false⟩ }, .oneByte, 0xA5,
      some (.string ⟨.move, .qword, .qword, some .whileEqual, none⟩), 0x1003⟩ := by rfl
  obtain ⟨hfilled, -⟩ := run_fills (s := .execute) rfl (by rfl) hfill rfl
    (show StringOp.Repeats _ true from rfl) rfl (by rfl) (by decide +kernel)
  obtain ⟨-, hcopied⟩ := run_fills (s := .execute) rfl (by rfl) hcopy rfl
    (show StringOp.Repeats _ true from rfl) rfl (by rfl) (by decide +kernel)
  obtain ⟨⟨-, hquads⟩, hbytes⟩ := hcopied rfl (by decide +kernel)
  refine ⟨((hfilled rfl).2.stored 1 (by decide +kernel)).dump,
    ((hquads.stored 1 (by decide +kernel)).dump).trans (by decide +kernel), ?_⟩
  exact (hbytes 0x1003 ⟨0x1003, { repetition := some .whileEqual }, .oneByte, 0xA4,
    some (.string ⟨.move, .byte, .qword, some .whileEqual, none⟩), 0x1005⟩
    ⟨.move, .byte, .qword, some .whileEqual, none⟩ true (by rfl)
    ⟨⟨rfl, rfl⟩, ⟨rfl, rfl⟩, ⟨rfl, rfl⟩⟩ rfl (by rfl) (by rfl) rfl).2

end Machine

end LongMode

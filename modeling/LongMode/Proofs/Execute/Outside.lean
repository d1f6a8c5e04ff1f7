import LongMode.Proofs.Execute.Footprint
import LongMode.Proofs.Memory.Block
/-!
Machines that differ in some bytes of memory only. An instruction that keeps to words without these
bytes does the same in both of them, and the machines it leaves differ in the same bytes only.
-/

namespace LongMode

def Element.Avoids (D : UInt64 → Prop) (e : Element) : Prop := ∀ x, D x → ¬ e.Covers x

/-- The two machines differ in the bytes of `D` and in their instruction pointers at most. -/
structure Machine.SameOutside (D : UInt64 → Prop) (m k : Machine) : Prop where
  flags : k.flags = m.flags
  registers : k.registers = m.registers
  breakpoints : k.breakpoints = m.breakpoints
  segments : k.memory.segments = m.memory.segments
  codeEnd : k.memory.codeEnd = m.memory.codeEnd
  strict : k.memory.strict = m.memory.strict
  cells : ∀ x, ¬ D x → k.memory.cells[x]? = m.memory.cells[x]?

namespace Machine.SameOutside

variable {D : UInt64 → Prop} {m k : Machine}

theorem refl (m : Machine) : m.SameOutside D m := ⟨rfl, rfl, rfl, rfl, rfl, rfl, fun _ _ => rfl⟩

theorem moveTo (h : m.SameOutside D k) (a b : UInt64) :
    ({ m with ip := a } : Machine).SameOutside D { k with ip := b } :=
  ⟨h.flags, h.registers, h.breakpoints, h.segments, h.codeEnd, h.strict, h.cells⟩

theorem readByte (h : m.SameOutside D k) {x : UInt64} (hx : ¬ D x) :
    k.memory.readByte x = m.memory.readByte x := by
  unfold Memory.readByte Memory.isMapped Memory.peek
  rw [Std.ExtTreeMap.contains_eq_isSome_getElem?, Std.ExtTreeMap.contains_eq_isSome_getElem?,
    h.cells x hx, h.strict, h.segments]

/-- A machine before and after other bytes are put in a word's place. -/
theorem write {e : Element} {bytes : List UInt8} (hlength : bytes.length = e.width.wordBytes)
    (m : Machine) : m.SameOutside e.Covers (m.write e.address bytes) where
  flags := rfl
  registers := rfl
  breakpoints := rfl
  segments := (Memory.Grows.write m.memory e.address bytes).segments
  codeEnd := (Memory.Grows.write m.memory e.address bytes).codeEnd
  strict := (Memory.Grows.write m.memory e.address bytes).strict
  cells _ hx := Memory.getElem?_cells_of_not_covers hlength hx m.memory

theorem inCode (h : m.SameOutside D k) (a : UInt64) : k.memory.inCode a = m.memory.inCode a := by
  unfold Memory.inCode Memory.entry Memory.segment?
  rw [h.segments, h.codeEnd]

end Machine.SameOutside

namespace Memory

variable {D : UInt64 → Prop} [DecidablePred D] {a x : UInt64}

/-- The memory with the bytes of `D` as they are in another one. -/
def patch (D : UInt64 → Prop) [DecidablePred D] (other m : Memory) : Memory :=
  { m with cells := m.cells.filter (fun x _ => !decide (D x)) ∪
      other.cells.filter (fun x _ => decide (D x)) }

theorem getElem?_cells_patch (other m : Memory) (x : UInt64) :
    (patch D other m).cells[x]? = if D x then other.cells[x]? else m.cells[x]? := by
  unfold patch
  rw [Std.ExtTreeMap.getElem?_union, Std.ExtTreeMap.getElem?_filter',
    Std.ExtTreeMap.getElem?_filter']
  have htrue (o : Option UInt8) : o.filter (fun _ => true) = o := by cases o <;> rfl
  by_cases h : D x <;> simp [h, htrue]

theorem writeByte_patch (other m : Memory) (ha : ¬ D a) (b : UInt8) :
    (patch D other m).writeByte a b = patch D other (m.writeByte a b) := by
  refine Memory.ext (Std.ExtTreeMap.ext_getElem? fun x => ?_) rfl rfl rfl
  rw [getElem?_cells_writeByte, getElem?_cells_patch, getElem?_cells_patch,
    getElem?_cells_writeByte]
  by_cases hx : x = a
  · subst hx
    simp [ha]
  · simp [hx]

theorem write_patch (other m : Memory) {bytes : List UInt8}
    (h : ∀ j < bytes.length, ¬ D (a + UInt64.ofNat j)) :
    (patch D other m).write a bytes = patch D other (m.write a bytes) := by
  induction bytes generalizing m a with
  | nil => rfl
  | cons b rest ih =>
    have ha : ¬ D a := by simpa using h 0 (Nat.succ_pos _)
    rw [write, write, writeByte_patch other m ha, ih]
    intro j hj
    rw [add_one_add_ofNat]
    exact h (j + 1) (Nat.succ_lt_succ hj)

theorem read_congr {m k : Memory} {n : Nat}
    (h : ∀ j < n, k.readByte (a + UInt64.ofNat j) = m.readByte (a + UInt64.ofNat j)) :
    k.read a n = m.read a n := by
  induction n generalizing a with
  | zero => rfl
  | succ n ih =>
    have ha : k.readByte a = m.readByte a := by simpa using h 0 (Nat.succ_pos _)
    rw [read, read, ha, ih]
    intro j hj
    rw [add_one_add_ofNat]
    exact h (j + 1) (Nat.succ_lt_succ hj)

end Memory

theorem Element.Avoids.not_place {D : UInt64 → Prop} {e : Element} (h : e.Avoids D) {j : Nat}
    (hj : j < e.width.wordBytes) : ¬ D (e.address + UInt64.ofNat j) :=
  fun hx => h _ hx (Memory.covers_add hj)

theorem Machine.SameOutside.readWord {D : UInt64 → Prop} {m k : Machine} {e : Element}
    (h : m.SameOutside D k) (he : e.Avoids D) :
    k.readWord e.address e.width = m.readWord e.address e.width := by
  unfold Machine.readWord Memory.readWord
  rw [Memory.read_congr fun j hj => h.readByte (he.not_place hj)]

namespace Machine

variable {D : UInt64 → Prop} [DecidablePred D] {m k : Machine}

def patch (D : UInt64 → Prop) [DecidablePred D] (other m : Machine) : Machine :=
  { m with memory := Memory.patch D other.memory m.memory }

theorem sameOutside_patch (other m : Machine) : m.SameOutside D (patch D other m) where
  flags := rfl
  registers := rfl
  breakpoints := rfl
  segments := rfl
  codeEnd := rfl
  strict := rfl
  cells x hx := (Memory.getElem?_cells_patch other.memory m.memory x).trans (if_neg hx)

theorem patch_eq (h : m.SameOutside D k) (hip : k.ip = m.ip) : patch D k m = k := by
  refine Machine.ext h.flags.symm (Memory.ext (Std.ExtTreeMap.ext_getElem? fun x => ?_)
    h.segments.symm h.codeEnd.symm h.strict.symm) h.registers.symm hip.symm h.breakpoints.symm
  refine (Memory.getElem?_cells_patch k.memory m.memory x).trans ?_
  split_ifs with hx
  · rfl
  · exact (h.cells x hx).symm

theorem patch_within (other : Machine) :
    UnnoticedWithin (Element.Avoids D) (fun _ => False) (patch D other) where
  registers _ := rfl
  flags _ := rfl
  ip _ := rfl
  set _ _ _ := rfl
  writeWord m a w v h := by
    refine congrArg (fun memory => ({ m with memory } : Machine))
      (Memory.write_patch other.memory m.memory fun j hj => ?_)
    rw [LittleEndian.length_ofWord] at hj
    exact h.not_place hj
  define _ _ := rfl
  moveTo _ _ := rfl
  readWord m _ _ h := .same ((sameOutside_patch other m).readWord h)

end Machine

/-- The same end, in machines that differ in the bytes of `D` only. -/
inductive Outcome.SameOutside (D : UInt64 → Prop) : Outcome → Outcome → Prop where
  | done {m k : Machine} (h : m.SameOutside D k) (hip : k.ip = m.ip) :
    SameOutside D (.done m) (.done k)
  | halted (e : Halt) {m k : Machine} (h : m.SameOutside D k) (hip : k.ip = m.ip) :
    SameOutside D (.halted e m) (.halted e k)

/-- An instruction that does not touch the bytes of `D` does not notice what they are. -/
theorem Instruction.execute_sameOutside {D : UInt64 → Prop} {m k : Machine} (i : Instruction)
    (frame : Frame) (h : m.SameOutside D k) (hip : k.ip = m.ip)
    (hi : ∀ e ∈ i.elements m, e.Avoids D) (hstack : ∀ e ∈ i.stackElements m, e.Avoids D) :
    (i.execute frame m).SameOutside D (i.execute frame k) := by
  classical
  have hx : i.execute frame k = (i.execute frame m).map (Machine.patch D k) := by
    rw [← Machine.patch_eq h hip]
    obtain hx | ⟨-, -, hlost, -⟩ :=
      (i.execute_redoable_within (Machine.patch_within k) frame m hi hstack).carried
    · rw [hx, Machine.patch_eq h hip]
    · exact hlost.elim
  rw [hx]
  cases i.execute frame m with
  | done n => exact .done (Machine.sameOutside_patch k n) rfl
  | halted e n => exact .halted e (Machine.sameOutside_patch k n) rfl

end LongMode

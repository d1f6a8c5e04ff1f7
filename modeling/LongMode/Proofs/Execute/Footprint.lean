import LongMode.Proofs.Execute.Unnoticed
import LongMode.Proofs.Memory
/-!
The rest of memory. A byte outside the words that an instruction can touch is neither read nor
written: with another value there the instruction does the same and leaves that value there.
-/

namespace LongMode

namespace Memory

variable {a x : UInt64}

theorem writeByte_comm (h : x ≠ a) (m : Memory) (b c : UInt8) :
    (m.writeByte x b).writeByte a c = (m.writeByte a c).writeByte x b := by
  unfold writeByte
  congr 1
  refine Std.ExtTreeMap.ext_getElem? fun k => ?_
  simp only [Std.ExtTreeMap.getElem?_insert, Std.LawfulEqCmp.compare_eq_iff_eq]
  by_cases hx : x = k
  · subst hx
    simp [Ne.symm h]
  · simp [hx]

/-- A write that ends before it comes to `x` round the top of memory. -/
theorem write_writeByte (m : Memory) (b : UInt8) {bytes : List UInt8}
    (h : bytes.length ≤ (x - a).toNat) :
    (m.writeByte x b).write a bytes = (m.write a bytes).writeByte x b := by
  induction bytes generalizing m a with
  | nil => rfl
  | cons c rest ih =>
    rw [List.length_cons] at h
    have hx : x ≠ a := by
      rintro rfl
      rw [UInt64.sub_self] at h
      cases h
    have hrest := toNat_sub_succ hx
    rw [write, write, writeByte_comm hx, ih _ (by omega)]

theorem read_writeByte (m : Memory) (b : UInt8) {n : Nat} (h : n ≤ (x - a).toNat) :
    (m.writeByte x b).read a n = m.read a n := by
  induction n generalizing a with
  | zero => rfl
  | succ n ih =>
    have hx : x ≠ a := by
      rintro rfl
      rw [UInt64.sub_self] at h
      cases h
    have hrest := toNat_sub_succ hx
    rw [read, read, readByte_writeByte, if_neg (Ne.symm hx), ih (by omega)]

end Memory

namespace Machine

def poke (x : UInt64) (b : UInt8) (m : Machine) : Machine :=
  { m with memory := m.memory.writeByte x b }

/-- What keeps to words that do not cover `x` does not notice what is there. -/
theorem poke_within (x : UInt64) (b : UInt8) :
    UnnoticedWithin (fun e => ¬ e.Covers x) (fun _ => False) (poke x b) where
  registers _ := rfl
  flags _ := rfl
  ip _ := rfl
  set _ _ _ := rfl
  writeWord m a w v h := by
    have hlength : (LittleEndian.ofWord w.wordBytes v).length ≤ (x - a).toNat := by
      rw [LittleEndian.length_ofWord]
      exact not_lt.1 h
    exact congrArg (fun memory => ({ m with memory } : Machine))
      (Memory.write_writeByte m.memory b hlength)
  define _ _ := rfl
  moveTo _ _ := rfl
  readWord m a w h := by
    refine .same ?_
    unfold readWord Memory.readWord poke
    rw [Memory.read_writeByte m.memory b (not_lt.1 h)]

end Machine

namespace Instruction

/-- An instruction reads and writes no byte but those of the words that it can touch. -/
theorem execute_poke (i : Instruction) (frame : Frame) (m : Machine) {x : UInt64}
    (hi : ∀ e ∈ i.elements m, ¬ e.Covers x) (hstack : ∀ e ∈ i.stackElements m, ¬ e.Covers x)
    (b : UInt8) : i.execute frame (m.poke x b) = (i.execute frame m).map (Machine.poke x b) := by
  obtain h | ⟨-, -, h, -⟩ :=
    (i.execute_redoable_within (Machine.poke_within x b) frame m hi hstack).carried
  · exact h
  · exact h.elim

end Instruction

end LongMode

import LongMode.Proofs.Encoding.Operands
import LongMode.Proofs.Execute.WriteBack
/-!
Targets of instructions. A general register and a place in memory read back what was written to
them, in strict memory as well. So a step that ends by writing a result to its target and laying
flags over the live ones leaves the result there, and changes nothing else but the instruction
pointer.
-/

namespace LongMode

/-- The lowest bytes of a word make up its low part. -/
theorem LittleEndian.toNat_toWord_ofWord {n : Nat} (h : n ≤ 8) (v : UInt64) :
    (toWord (ofWord n v)).toNat = v.toNat % 2 ^ (8 * n) := by
  induction n generalizing v with
  | zero =>
    rw [Nat.mul_zero, pow_zero, Nat.mod_one]
    rfl
  | succ n ih =>
    have hlow : v.toUInt8.toNat = v.toNat % 2 ^ 8 := UInt64.toNat_toUInt8 v
    have hhigh : (v >>> 8).toNat = v.toNat / 2 ^ 8 := by
      rw [UInt64.toNat_shiftRight, Nat.shiftRight_eq_div_pow]
      rfl
    have hrest : (toWord (ofWord n (v >>> 8))).toNat < 2 ^ 56 := by
      rw [ih (by omega), hhigh]
      exact (Nat.mod_le _ _).trans_lt (by have := v.toNat_lt; omega)
    have hsize : 8 * (n + 1) = 8 + 8 * n := by ring
    rw [ofWord, toWord, toNat_or_shift _ hrest, ih (by omega), hlow, hhigh, hsize, pow_add,
      Nat.mod_mul]
    rfl

namespace Memory

theorem read_of_readByte {m : Memory} {a : UInt64} {bytes : List UInt8}
    (h : ∀ i (hi : i < bytes.length), m.readByte (a + UInt64.ofNat i) = .ok bytes[i]) :
    m.read a bytes.length = .ok bytes := by
  induction bytes generalizing a with
  | nil => rfl
  | cons b rest ih =>
    have hb : m.readByte a = .ok b := by simpa using h 0 (Nat.succ_pos _)
    have hrest : m.read (a + 1) rest.length = .ok rest := by
      refine ih fun i hi => ?_
      have hplace : a + 1 + UInt64.ofNat i = a + UInt64.ofNat (i + 1) := by
        rw [UInt64.ofNat_add, UInt64.add_assoc, UInt64.add_comm 1]
        rfl
      rw [hplace]
      exact h (i + 1) (Nat.succ_lt_succ hi)
    rw [List.length_cons, read, hb]
    dsimp only [ok_bind]
    rw [hrest]
    rfl

/-- A word is read back from where it was written. -/
theorem readWord_writeWord (m : Memory) (a : UInt64) (w : Width) (v : UInt64) :
    (m.writeWord a w v).readWord a w = .ok (v &&& w.mask) := by
  have hw := wordBytes_le w
  have hlength := LittleEndian.length_ofWord w.wordBytes v
  have hbytes : ∀ i (hi : i < (LittleEndian.ofWord w.wordBytes v).length),
      (m.writeWord a w v).readByte (a + UInt64.ofNat i) =
        .ok (LittleEndian.ofWord w.wordBytes v)[i] := by
    intro i hi
    have hplace : (a + UInt64.ofNat i - a).toNat = i := by
      rw [UInt64.add_comm, UInt64.add_sub_cancel, UInt64.toNat_ofNat_of_lt']
      exact (by omega : i < 2 ^ 64)
    rw [writeWord, readByte_write _ _ _ _ (by omega), hplace, List.getElem?_eq_getElem hi]
    rfl
  have hread := read_of_readByte hbytes
  rw [hlength] at hread
  unfold readWord
  rw [hread]
  refine congrArg Except.ok (UInt64.toNat_inj.1 ?_)
  rw [LittleEndian.toNat_toWord_ofWord hw, Width.toNat_and_mask]
  rfl

end Memory

namespace Operand

/-- The operand reads back what is written to it. -/
def Keeps : Operand → Prop
  | register r => r.bank = .general
  | memory _ => True
  | immediate _ => False

variable {o : Operand} {m n : Machine} {r : UInt64}

theorem Keeps.exists_write (h : o.Keeps) (m : Machine) (r : UInt64) : ∃ n, o.write m r = .ok n := by
  cases o with
  | register q | memory p => exact ⟨_, rfl⟩
  | immediate i => exact h.elim

theorem Keeps.read_of_write (h : o.Keeps) (hn : o.write m r = .ok n) :
    o.read n = .ok (r &&& o.width.mask) := by
  cases o with
  | register q =>
    cases hn
    exact congrArg Except.ok (Register.fetch_set h m.registers r)
  | memory p =>
    cases hn
    exact Memory.readWord_writeWord m.memory (p.resolve m) p.width r
  | immediate i => exact h.elim

theorem flags_of_write (hn : o.write m r = .ok n) : n.flags = m.flags := by
  cases o with
  | register q | memory p =>
    cases hn
    rfl
  | immediate i => cases hn

/-- What is written where does not depend on the flags. -/
theorem write_define (f : Flags) (hn : o.write m r = .ok n) :
    o.write (m.define f) r = .ok (n.define f) := by
  cases o with
  | register q | memory p =>
    cases hn
    rfl
  | immediate i => cases hn

end Operand

/-- The operands that an encoding has its instruction write to keep what they are given. -/
theorem Located.keeps_of_at? {f : Fetch} {start : UInt64} {l : Located} {i : Instruction}
    {o : Operand} (hl : at? f start = .ok l) (hi : l.instruction = some i) (ho : o ∈ i.written)
    (hn : o ∈ i.named) : o.Keeps := by
  have hplace : o.isPlace := ((at?_spans hl).wellFormed i hi).written o ho
  obtain ⟨w, hw⟩ := (encoded_of_at? hl hi).operands o hn
  cases o with
  | register r => exact hw.1
  | memory p => trivial
  | immediate i => cases hplace

namespace Machine

/-- The step puts a word into an operand: it completes, the operand reads back the word, and nothing
else is new but the flags and the instruction pointer. -/
structure Puts (s : Settings) (m : Machine) (next : UInt64) (o : Operand) (r : UInt64)
    (flags : Flags) : Prop where
  completes : (m.run s true).stop = .step
  written : o.write { m with ip := next, flags } r = .ok (m.run s true).machine
  kept : o.read (m.run s true).machine = .ok r

variable {s : Settings} {m : Machine} {l : Located} {i : Instruction} {o : Operand} {r : UInt64}
  {f : Flags}

theorem Puts.flags_eq {next : UInt64} (h : m.Puts s next o r f) :
    (m.run s true).machine.flags = f :=
  Operand.flags_of_write h.written

/-- What an instruction does at last puts its result where it is read back. -/
theorem run_puts (hd : s.disassemble = false) (hc : m.inCode = true) (hl : m.locate = .ok l)
    (hi : l.instruction = some i) (ho : o.Keeps) (hr : r.toNat < o.width.modulus)
    (hx : i.execute (frameOf s l) { m with ip := l.next } = .whole { m with ip := l.next }
      (Execute.write o r { m with ip := l.next } >>= fun n => .ok (n.define f))) :
    m.Puts s l.next o r (m.flags.overlap f) := by
  obtain ⟨n, hn⟩ := ho.exists_write { m with ip := l.next } r
  have hwrite : Execute.write o r { m with ip := l.next } = .ok n := by
    unfold Execute.write
    rw [hn]
    rfl
  rw [hwrite] at hx
  obtain ⟨hstop, hmachine⟩ := run_of_done hl hd hi hc hx
  have hdefined := Operand.write_define f hn
  have hmask : r &&& o.width.mask = r := by
    rw [← UInt64.toNat_inj, Width.toNat_and_mask, Nat.mod_eq_of_lt hr]
  refine ⟨hstop, hmachine ▸ hdefined, ?_⟩
  rw [hmachine, ho.read_of_write hdefined, hmask]

end Machine

end LongMode

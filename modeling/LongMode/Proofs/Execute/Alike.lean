import LongMode.Instruction.Text
import LongMode.Proofs.Execute.Unnoticed
import LongMode.Proofs.Execute.Updates
/-!
Instructions that read alike and do alike, wherever in memory they stand: the classic operations,
`TEST` and `MOV`, on operands whose addresses do not count from the instruction pointer.
-/

namespace LongMode

/-- The two operands have one text and one width and stand for one place, wherever the instruction
pointer is. -/
structure Operand.Alike (o o' : Operand) : Prop where
  text : o'.text = o.text
  width : o'.width = o.width
  read : ∀ m a, o'.read { m with ip := a } = o.read m
  write : ∀ m a v, o'.write { m with ip := a } v = (o.write m v).map fun n => { n with ip := a }

namespace Operand

theorem alike_immediate (i : Immediate) : (immediate i).Alike (immediate i) :=
  ⟨rfl, rfl, fun _ _ => rfl, fun _ _ _ => rfl⟩

theorem alike_memory {p : Pointer}
    (h : ∀ (m : Machine) (a : UInt64), p.resolve { m with ip := a } = p.resolve m) :
    (memory p).Alike (memory p) where
  text := rfl
  width := rfl
  read m a := congrArg (fun x => m.readWord x p.width) (h m a)
  write m a v := congrArg
    (fun x => Except.ok (({ m with ip := a } : Machine).writeWord x p.width v)) (h m a)

theorem alike_register {r r' : Register} (hfetch : ∀ f, r'.fetch f = r.fetch f)
    (hset : ∀ f v, r'.set f v = r.set f v) (hwidth : r'.width = r.width)
    (hname : r'.mnemonic = r.mnemonic) :
    (register r).Alike (register r') where
  text := hname
  width := hwidth
  read m _ := congrArg Except.ok (hfetch m.registers)
  write m a v := congrArg (fun registers => Except.ok ({ m with registers, ip := a } : Machine))
    (hset m.registers v)

/-- Register 0 has no second name, so that it does not matter to it whether there is a REX byte. -/
theorem alike_accumulator (w : Width) (rex : Bool) :
    (register (.accumulator w)).Alike (register ⟨.general, 0, w, rex⟩) := by
  have hlow (rex : Bool) : (⟨.general, 0, w, rex⟩ : Register).isHighByte = false := by
    simp [Register.isHighByte]
  have haccumulator : (Register.accumulator w).isHighByte = false := hlow true
  refine alike_register (fun f => ?_) (fun f v => ?_) rfl ?_
  · unfold Register.fetch
    rw [hlow, haccumulator]
    rfl
  · unfold Register.set
    rw [hlow, haccumulator]
    rfl
  · unfold Register.mnemonic
    rw [hlow, haccumulator]
    rfl

end Operand

namespace Execute

variable {dst dst' src src' : Operand}

abbrev Moved (a : UInt64) (r r' : Except Halt Machine) : Prop :=
  Carried (fun _ => False) (fun n => { n with ip := a }) r r'

theorem read_alike (h : dst.Alike dst') (m : Machine) (a : UInt64) :
    Carried (fun _ => False) id (read dst m) (read dst' { m with ip := a }) := by
  refine .same ?_
  unfold read
  rw [h.read]

theorem write_alike (h : dst.Alike dst') (m : Machine) (a v : UInt64) :
    Moved a (write dst v m) (write dst' v { m with ip := a }) := by
  left
  unfold write
  rw [h.write]
  cases dst.write m v <;> rfl

theorem binary_alike (hdst : dst.Alike dst') (hsrc : src.Alike src') (op : BinaryOp) (m : Machine)
    (a : UInt64) : Moved a (binary op dst src m) (binary op dst' src' { m with ip := a }) := by
  refine (read_alike hdst m a).bind fun x => (read_alike hsrc m a).bind fun y => ?_
  rw [hdst.width]
  dsimp only [id]
  split_ifs
  · exact .ok rfl
  · exact (write_alike hdst m a _).bind fun _ => .ok rfl

theorem test_alike (hdst : dst.Alike dst') (hsrc : src.Alike src') (m : Machine) (a : UInt64) :
    Moved a (test dst src m) (test dst' src' { m with ip := a }) := by
  refine (read_alike hdst m a).bind fun x => (read_alike hsrc m a).bind fun y => .ok ?_
  rw [hdst.width]
  rfl

theorem move_alike (hdst : dst.Alike dst') (hsrc : src.Alike src') (m : Machine) (a : UInt64) :
    Moved a (move dst src m) (move dst' src' { m with ip := a }) :=
  (read_alike hsrc m a).bind fun x => write_alike hdst m a x

end Execute

namespace Instruction

/-- The two instructions read alike and do alike, wherever they stand, and go on behind
themselves. -/
structure Alike (i i' : Instruction) : Prop where
  tokens : i'.tokens = i.tokens
  execute : ∀ frame frame' m a,
    i'.execute frame' { m with ip := a } = (i.execute frame m).map fun n => { n with ip := a }
  destination : ∀ frame m, i.destination? frame m = none

variable {dst dst' src src' : Operand}

theorem alike_of_whole {i i' : Instruction} {effect effect' : Machine → Except Halt Machine}
    (htokens : i'.tokens = i.tokens) (hi : ∀ frame m, i.execute frame m = .whole m (effect m))
    (hi' : ∀ frame m, i'.execute frame m = .whole m (effect' m))
    (heffect : ∀ m a, Execute.Moved a (effect m) (effect' { m with ip := a }))
    (hdestination : ∀ frame m, i.destination? frame m = none) : i.Alike i' where
  tokens := htokens
  execute frame frame' m a := by
    obtain h | ⟨e, he, -⟩ := heffect m a
    · rw [hi, hi', h, ← Outcome.whole_map]
    · exact he.elim
  destination := hdestination

theorem binary_alike (op : BinaryOp) (hdst : dst.Alike dst') (hsrc : src.Alike src') :
    (binary op dst src).Alike (binary op dst' src') := by
  refine alike_of_whole ?_ (fun _ _ => rfl) (fun _ _ => rfl)
    (Execute.binary_alike hdst hsrc op) fun _ _ => rfl
  simp only [tokens, hdst.text, hsrc.text]

theorem test_alike (hdst : dst.Alike dst') (hsrc : src.Alike src') :
    (test dst src).Alike (test dst' src') := by
  refine alike_of_whole ?_ (fun _ _ => rfl) (fun _ _ => rfl)
    (Execute.test_alike hdst hsrc) fun _ _ => rfl
  simp only [tokens, hdst.text, hsrc.text]

theorem move_alike (hdst : dst.Alike dst') (hsrc : src.Alike src') :
    (move dst src).Alike (move dst' src') := by
  refine alike_of_whole ?_ (fun _ _ => rfl) (fun _ _ => rfl)
    (Execute.move_alike hdst hsrc) fun _ _ => rfl
  simp only [tokens, hdst.text, hsrc.text]

theorem Alike.ip_of_done {i i' : Instruction} (h : i.Alike i') {frame : Frame} {m n : Machine}
    (hx : i.execute frame m = .done n) : n.ip = m.ip := by
  obtain ⟨k, -, rfl⟩ := execute_updates hx
  unfold nextIp
  rw [h.destination]
  split_ifs <;> rfl

end Instruction

end LongMode

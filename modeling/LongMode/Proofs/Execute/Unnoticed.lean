import LongMode.Proofs.Execute.Elements
import LongMode.Proofs.Registers
/-!
Changes of a machine that no instruction notices, or none that keeps to some words in memory. Such a
change leaves alone all that instructions look at there, but for bytes that could not be read before
and can be read behind it. An instruction then does the same with and without the change, or it halts
without, and can be carried out again behind the change from where it halted.
-/

namespace LongMode

/-- The second result is the first one seen through `g`, unless the first one is an error that may
be lost. -/
def Carried {ε α β : Type} (lost : ε → Prop) (g : α → β) (r : Except ε α) (r' : Except ε β) : Prop :=
  r' = r.map g ∨ ∃ e, lost e ∧ r = .error e

namespace Carried

variable {ε α β γ δ : Type} {lost : ε → Prop} {g : α → β} {k : γ → δ}

theorem ok {x : α} {y : β} (h : y = g x) : Carried lost g (.ok x) (.ok y) := .inl (by rw [h]; rfl)

theorem error (e : ε) : Carried lost g (.error e) (.error e) := .inl rfl

theorem same {r r' : Except ε α} (h : r' = r) : Carried lost id r r' := by
  left
  rw [h]
  cases r <;> rfl

theorem bind_of_ok {r : Except ε α} {r' : Except ε β} {f : α → Except ε γ} {f' : β → Except ε δ}
    (hr : Carried lost g r r') (hf : ∀ x, r = .ok x → Carried lost k (f x) (f' (g x))) :
    Carried lost k (r >>= f) (r' >>= f') := by
  obtain rfl | ⟨e, he, rfl⟩ := hr
  · cases r with
    | ok x => exact hf x rfl
    | error e => exact error e
  · exact .inr ⟨e, he, rfl⟩

theorem bind {r : Except ε α} {r' : Except ε β} {f : α → Except ε γ} {f' : β → Except ε δ}
    (hr : Carried lost g r r') (hf : ∀ x, Carried lost k (f x) (f' (g x))) :
    Carried lost k (r >>= f) (r' >>= f') := hr.bind_of_ok fun x _ => hf x

theorem ite {c c' : Prop} [Decidable c] [Decidable c'] {r s : Except ε α} {r' s' : Except ε β}
    (hc : c' ↔ c) (hr : Carried lost g r r') (hs : Carried lost g s s') :
    Carried lost g (if c then r else s) (if c' then r' else s') := by
  by_cases h : c
  · rw [if_pos h, if_pos (hc.2 h)]
    exact hr
  · rw [if_neg h, if_neg fun h' => h (hc.1 h')]
    exact hs

/-- A result that there is comes out the same. -/
theorem of_ok {r : Except ε α} {r' : Except ε β} {x : α} (h : Carried lost g r r')
    (hx : r = .ok x) : r' = .ok (g x) := by
  obtain rfl | ⟨e, -, he⟩ := h
  · rw [hx]
    rfl
  · rw [hx] at he
    cases he

theorem orFault {lost : Halt → Prop} {r : Except Fault α} {r' : Except Fault β}
    (h : Carried (fun f => lost (.fault f)) g r r') :
    Carried lost g (LongMode.orFault r) (LongMode.orFault r') := by
  obtain rfl | ⟨f, hf, rfl⟩ := h
  · cases r with
    | ok x => exact ok rfl
    | error f => exact error _
  · exact .inr ⟨_, hf, rfl⟩

end Carried

/-- `g` leaves alone what instructions look at and goes along with what they change. A byte that
faults in a way that may be lost may be readable behind it. -/
structure Machine.Unnoticed (lost : Halt → Prop) (g : Machine → Machine) : Prop where
  registers : ∀ m, (g m).registers = m.registers
  flags : ∀ m, (g m).flags = m.flags
  ip : ∀ m, (g m).ip = m.ip
  set : ∀ m r v, (g m).set r v = g (m.set r v)
  writeWord : ∀ m a w v, (g m).writeWord a w v = g (m.writeWord a w v)
  define : ∀ m flags, (g m).define flags = g (m.define flags)
  moveTo : ∀ m a, { g m with ip := a } = g { m with ip := a }
  readByte : ∀ m a,
    Carried (fun f => lost (.fault f)) id (m.memory.readByte a) ((g m).memory.readByte a)

/-- `g` leaves alone what instructions look at and goes along with what they change, as far as they
keep to the words in `reach`. A word that faults in a way that may be lost may be readable behind
it. -/
structure Machine.UnnoticedWithin (reach : Element → Prop) (lost : Halt → Prop)
    (g : Machine → Machine) : Prop where
  registers : ∀ m, (g m).registers = m.registers
  flags : ∀ m, (g m).flags = m.flags
  ip : ∀ m, (g m).ip = m.ip
  set : ∀ m r v, (g m).set r v = g (m.set r v)
  writeWord : ∀ m a w v, reach ⟨a, w⟩ → (g m).writeWord a w v = g (m.writeWord a w v)
  define : ∀ m flags, (g m).define flags = g (m.define flags)
  moveTo : ∀ m a, { g m with ip := a } = g { m with ip := a }
  readWord : ∀ m a w, reach ⟨a, w⟩ →
    Carried (fun f => lost (.fault f)) id (m.readWord a w) ((g m).readWord a w)

namespace Machine

variable {reach : Element → Prop} {lost : Halt → Prop} {g : Machine → Machine} {m : Machine}

theorem Unnoticed.read (hg : Unnoticed lost g) (m : Machine) (a : UInt64) (n : Nat) :
    Carried (fun f => lost (.fault f)) id (m.memory.read a n) ((g m).memory.read a n) := by
  induction n generalizing a with
  | zero => exact .ok rfl
  | succ n ih => exact (hg.readByte m a).bind fun b => (ih (a + 1)).bind fun rest => .ok rfl

/-- What no instruction notices is not noticed by one that keeps to some words. -/
theorem Unnoticed.within (hg : Unnoticed lost g) (reach : Element → Prop) :
    UnnoticedWithin reach lost g where
  registers := hg.registers
  flags := hg.flags
  ip := hg.ip
  set := hg.set
  writeWord m a w v _ := hg.writeWord m a w v
  define := hg.define
  moveTo := hg.moveTo
  readWord m a w _ := (hg.read m a w.wordBytes).bind fun _ => .ok rfl

namespace UnnoticedWithin

theorem get (hg : UnnoticedWithin reach lost g) (m : Machine) (r : Register) :
    (g m).get r = m.get r := by
  unfold Machine.get
  rw [hg.registers]

theorem push (hg : UnnoticedWithin reach lost g) (m : Machine) {w : Width} (v : UInt64)
    (h : reach (m.belowTop w)) : (g m).push w v = g (m.push w v) := by
  unfold Machine.push
  rw [hg.get]
  dsimp only
  rw [hg.set, hg.writeWord _ _ _ _ h]

theorem resolve (hg : UnnoticedWithin reach lost g) (m : Machine) (p : Pointer) :
    p.resolve (g m) = p.resolve m := by
  have hget : (g m).get = m.get := funext (hg.get m)
  unfold Pointer.resolve
  rw [hg.ip]
  simp only [hget]

theorem holds (hg : UnnoticedWithin reach lost g) (m : Machine) (frame : Frame)
    (cond : Condition) : Execute.holds frame cond (g m) = Execute.holds frame cond m := by
  unfold Execute.holds
  rw [hg.flags, hg.get]

theorem jump (hg : UnnoticedWithin reach lost g) (m : Machine) (frame : Frame)
    (target : UInt64) : Execute.jump frame target (g m) = g (Execute.jump frame target m) := by
  unfold Execute.jump
  split_ifs
  · exact hg.moveTo m target
  · rfl

theorem setPair (hg : UnnoticedWithin reach lost g) (m : Machine) (w : Width)
    (low high : UInt64) : Execute.setPair w low high (g m) = g (Execute.setPair w low high m) := by
  unfold Execute.setPair
  split_ifs
  · rw [hg.set]
  · rw [hg.set, hg.set]

theorem pop (hg : UnnoticedWithin reach lost g) (m : Machine) {w : Width}
    (h : reach (m.top w)) :
    Carried (fun f => lost (.fault f)) (Prod.map id g) (m.pop w) ((g m).pop w) := by
  unfold Machine.pop
  rw [hg.get]
  refine (hg.readWord m _ w h).bind fun v => .ok ?_
  rw [hg.set]
  rfl

end UnnoticedWithin

end Machine

def Operand.Within (reach : Element → Prop) (m : Machine) (o : Operand) : Prop :=
  ∀ e ∈ o.elements m, reach e

theorem Operand.within_of_after {reach : Element → Prop} {o : Operand} {r : Except Halt Machine}
    {n : Machine} (h : ∀ e ∈ o.elementsAfter r, reach e) (hr : r = .ok n) : o.Within reach n := by
  rw [hr] at h
  exact h

namespace Execute

variable {reach : Element → Prop} {lost : Halt → Prop} {g : Machine → Machine} {frame : Frame}
  {o dst src : Operand} {m : Machine}

theorem read_carried (hg : Machine.UnnoticedWithin reach lost g) (ho : o.Within reach m) :
    Carried lost id (read o m) (read o (g m)) := by
  refine Carried.orFault ?_
  cases o with
  | register r => exact .ok (hg.get m r)
  | memory p =>
    change Carried _ id (m.readWord (p.resolve m) p.width) _
    rw [← hg.resolve]
    refine hg.readWord m _ _ ?_
    rw [hg.resolve]
    exact ho _ List.mem_cons_self
  | immediate i => exact .ok rfl

theorem write_carried (hg : Machine.UnnoticedWithin reach lost g) (ho : o.Within reach m)
    (v : UInt64) : Carried lost g (write o v m) (write o v (g m)) := by
  cases o with
  | register r => exact .ok (hg.set m r v)
  | memory p =>
    refine .ok ?_
    rw [hg.resolve]
    exact hg.writeWord m _ _ _ (ho _ List.mem_cons_self)
  | immediate i => exact .error _

theorem write_define_carried (hg : Machine.UnnoticedWithin reach lost g) (ho : o.Within reach m)
    (v : UInt64) (flags : Flags) :
    Carried lost g (write o v m >>= fun written => .ok (written.define flags))
      (write o v (g m) >>= fun written => .ok (written.define flags)) :=
  (write_carried hg ho v).bind fun written => .ok (hg.define written flags)

theorem binary_carried (hg : Machine.UnnoticedWithin reach lost g) (op : BinaryOp)
    (hdst : dst.Within reach m) (hsrc : src.Within reach m) :
    Carried lost g (binary op dst src m) (binary op dst src (g m)) := by
  refine (read_carried hg hdst).bind fun a => (read_carried hg hsrc).bind fun b => ?_
  dsimp only [id]
  rw [hg.flags]
  split_ifs
  · exact .ok (hg.define m _)
  · exact write_define_carried hg hdst _ _

theorem test_carried (hg : Machine.UnnoticedWithin reach lost g) (hdst : dst.Within reach m)
    (hsrc : src.Within reach m) : Carried lost g (test dst src m) (test dst src (g m)) :=
  (read_carried hg hdst).bind fun _ => (read_carried hg hsrc).bind fun _ => .ok (hg.define m _)

theorem unary_carried (hg : Machine.UnnoticedWithin reach lost g) (op : UnaryOp)
    (ho : o.Within reach m) : Carried lost g (unary op o m) (unary op o (g m)) :=
  (read_carried hg ho).bind fun _ => write_define_carried hg ho _ _

theorem multiply_carried (hg : Machine.UnnoticedWithin reach lost g) (signed : Bool)
    (ho : o.Within reach m) : Carried lost g (multiply signed o m) (multiply signed o (g m)) := by
  refine (read_carried hg ho).bind fun b => .ok ?_
  rw [hg.get, hg.setPair, hg.define]
  rfl

theorem divide_carried (hg : Machine.UnnoticedWithin reach lost g) (signed : Bool)
    (ho : o.Within reach m) :
    Carried lost g (divide frame signed o m) (divide frame signed o (g m)) := by
  refine (read_carried hg ho).bind fun divisor => ?_
  dsimp only [id]
  rw [hg.get, hg.get, hg.get]
  split
  · exact .error _
  · exact .ok (hg.setPair m _ _ _)

theorem multiplyInto_carried (hg : Machine.UnnoticedWithin reach lost g)
    {factor : Option Operand} (hdst : dst.Within reach m) (hsrc : src.Within reach m)
    (hfactor : ∀ o ∈ factor, o.Within reach m) :
    Carried lost g (multiplyInto dst src factor m) (multiplyInto dst src factor (g m)) := by
  have hfirst : (if factor.isSome then src else dst).Within reach m := by
    split_ifs
    · exact hsrc
    · exact hdst
  have hsecond : (factor.getD src).Within reach m := by
    cases factor with
    | none => exact hsrc
    | some o => exact hfactor o rfl
  exact (read_carried hg hfirst).bind fun _ => (read_carried hg hsecond).bind fun _ =>
    write_define_carried hg hdst _ _

theorem move_carried (hg : Machine.UnnoticedWithin reach lost g) (hdst : dst.Within reach m)
    (hsrc : src.Within reach m) : Carried lost g (move dst src m) (move dst src (g m)) :=
  (read_carried hg hsrc).bind fun _ => write_carried hg hdst _

theorem moveExtend_carried (hg : Machine.UnnoticedWithin reach lost g) (signed : Bool)
    (hdst : dst.Within reach m) (hsrc : src.Within reach m) :
    Carried lost g (moveExtend signed dst src m) (moveExtend signed dst src (g m)) :=
  (read_carried hg hsrc).bind fun _ => write_carried hg hdst _

theorem exchange_carried (hg : Machine.UnnoticedWithin reach lost g) (hdst : dst.Within reach m)
    (hsrc : src.Within reach m)
    (hafter : ∀ e ∈ src.elementsAfter (do let right ← read src m; write dst right m), reach e) :
    Carried lost g (exchange dst src m) (exchange dst src (g m)) := by
  refine (read_carried hg hdst).bind fun left => (read_carried hg hsrc).bind_of_ok fun right hr =>
    (write_carried hg hdst _).bind_of_ok fun written hw => ?_
  refine write_carried hg (Operand.within_of_after hafter ?_) _
  rw [hr]
  exact hw

theorem exchangeAdd_carried (hg : Machine.UnnoticedWithin reach lost g)
    (hdst : dst.Within reach m) (hsrc : src.Within reach m)
    (hafter : ∀ e ∈ dst.elementsAfter (do let a ← read dst m; write src a m), reach e) :
    Carried lost g (exchangeAdd dst src m) (exchangeAdd dst src (g m)) := by
  refine (read_carried hg hdst).bind_of_ok fun a ha => (read_carried hg hsrc).bind fun b =>
    (write_carried hg hsrc _).bind_of_ok fun copied hc => ?_
  refine write_define_carried hg (Operand.within_of_after hafter ?_) _ _
  rw [ha]
  exact hc

theorem moveIf_carried (hg : Machine.UnnoticedWithin reach lost g) (cond : Condition)
    (hdst : dst.Within reach m) (hsrc : src.Within reach m) :
    Carried lost g (moveIf frame cond dst src m) (moveIf frame cond dst src (g m)) := by
  refine (read_carried hg hsrc).bind fun v => ?_
  dsimp only [id]
  rw [hg.holds]
  refine .ite .rfl (write_carried hg hdst _) (.ite .rfl ?_ (.ok rfl))
  exact (read_carried hg hdst).bind fun _ => write_carried hg hdst _

theorem push_carried (hg : Machine.UnnoticedWithin reach lost g) (ho : o.Within reach m)
    (hbelow : reach (m.belowTop o.width)) : Carried lost g (push o m) (push o (g m)) :=
  (read_carried hg ho).bind fun _ => .ok (hg.push m _ hbelow)

theorem pop_carried (hg : Machine.UnnoticedWithin reach lost g) (htop : reach (m.top o.width))
    (ho : ∀ e ∈ o.elementsAfter (do let s ← orFault (m.pop o.width); return s.2), reach e) :
    Carried lost g (pop o m) (pop o (g m)) := by
  refine (hg.pop m htop).orFault.bind_of_ok fun s hs => ?_
  refine write_carried hg (Operand.within_of_after ho ?_) s.1
  rw [hs]
  rfl

theorem popFlags_carried (hg : Machine.UnnoticedWithin reach lost g) {w : Width}
    (htop : reach (m.top w)) : Carried lost g (popFlags w m) (popFlags w (g m)) :=
  (hg.pop m htop).orFault.bind fun s => .ok (hg.define s.2 _)

theorem jumpIf_carried (hg : Machine.UnnoticedWithin reach lost g) (cond : Condition)
    (ho : o.Within reach m) : Carried lost g (jumpIf frame cond o m) (jumpIf frame cond o (g m)) := by
  refine (read_carried hg ho).bind fun a => .ok ?_
  rw [hg.holds, hg.jump]
  split_ifs <;> rfl

theorem call_carried (hg : Machine.UnnoticedWithin reach lost g) (ho : o.Within reach m)
    (hbelow : reach (m.belowTop .qword)) : Carried lost g (call frame o m) (call frame o (g m)) := by
  refine (read_carried hg ho).bind fun a => .ok ?_
  rw [hg.ip, hg.push m _ hbelow, hg.jump]
  rfl

theorem ret_carried (hg : Machine.UnnoticedWithin reach lost g) (release : UInt16)
    (htop : reach (m.top .qword)) :
    Carried lost g (ret frame release m) (ret frame release (g m)) := by
  refine (hg.pop m htop).orFault.bind fun s => .ok ?_
  obtain ⟨a, popped⟩ := s
  dsimp only [Prod.map, id]
  rw [hg.get, hg.set, hg.jump]

theorem shift_carried (hg : Machine.UnnoticedWithin reach lost g) (op : ShiftOp)
    (hdst : dst.Within reach m) (hsrc : src.Within reach m) :
    Carried lost g (shift op dst src m) (shift op dst src (g m)) := by
  refine (read_carried hg hdst).bind fun v => (read_carried hg hsrc).bind fun amount => ?_
  dsimp only [id]
  rw [hg.flags]
  split
  · exact .ok rfl
  · exact write_define_carried hg hdst _ _

theorem bitPlace_unnoticed (hg : Machine.UnnoticedWithin reach lost g) (raw : UInt64)
    (m : Machine) : bitPlace dst src raw (g m) = bitPlace dst src raw m := by
  cases dst with
  | memory p => simp only [bitPlace, hg.resolve]
  | register r | immediate i => rfl

theorem bitTest_carried (hg : Machine.UnnoticedWithin reach lost g) (op : BitOp)
    (hsrc : src.Within reach m) (hbit : ∀ e ∈ bitElements dst src m, reach e) :
    Carried lost g (bitTest op dst src m) (bitTest op dst src (g m)) := by
  refine (read_carried hg hsrc).bind_of_ok fun raw hraw => ?_
  unfold bitElements at hbit
  rw [show src.read m = .ok raw from ok_of_orFault hraw] at hbit
  dsimp only [id] at hbit ⊢
  rw [bitPlace_unnoticed hg]
  generalize bitPlace dst src raw m = place at hbit ⊢
  obtain ⟨address?, bit⟩ := place
  cases address? with
  | some a =>
    have ha : reach ⟨a, dst.width⟩ := hbit _ List.mem_cons_self
    refine (hg.readWord m a _ ha).orFault.bind fun v => ?_
    dsimp only [id]
    cases bitResult op v (1 <<< UInt64.ofNat bit) with
    | none => exact .ok (hg.define m _)
    | some new =>
      refine .ok ?_
      rw [hg.writeWord m a _ _ ha, hg.define]
  | none =>
    refine (read_carried hg hbit).bind fun v => ?_
    dsimp only [id]
    cases bitResult op v (1 <<< UInt64.ofNat bit) with
    | none => exact .ok (hg.define m _)
    | some new => exact write_define_carried hg hbit _ _

theorem bitScan_carried (hg : Machine.UnnoticedWithin reach lost g) (reverse : Bool)
    (hdst : dst.Within reach m) (hsrc : src.Within reach m) :
    Carried lost g (bitScan reverse dst src m) (bitScan reverse dst src (g m)) :=
  (read_carried hg hsrc).bind fun _ =>
    .ite .rfl (.ok (hg.define m _)) (write_define_carried hg hdst _ _)

end Execute

def Outcome.map (g : Machine → Machine) : Outcome → Outcome
  | done n => done (g n)
  | halted h n => halted h (g n)

theorem Outcome.whole_map (g : Machine → Machine) (m : Machine) (r : Except Halt Machine) :
    whole (g m) (r.map g) = (whole m r).map g := by
  cases r <;> rfl

/-- Behind `g` the outcome is the same, unless it is a halt that may be lost; and what has halted
comes to the same end behind `g` when it is done again from where it halted. -/
structure Redoable (lost : Halt → Prop) (g : Machine → Machine) (exec : Machine → Outcome)
    (m : Machine) : Prop where
  carried : exec (g m) = (exec m).map g ∨ ∃ e n, lost e ∧ exec m = .halted e n
  again : ∀ e n, exec m = .halted e n → exec (g n) = exec (g m)

namespace Redoable

variable {lost : Halt → Prop} {g : Machine → Machine} {m : Machine}

theorem done {f : Machine → Machine} (h : f (g m) = g (f m)) :
    Redoable lost g (fun m => .done (f m)) m where
  carried := .inl (congrArg Outcome.done h)
  again _ _ hx := by cases hx

theorem whole {f : Machine → Except Halt Machine} (h : Carried lost g (f m) (f (g m))) :
    Redoable lost g (fun m => .whole m (f m)) m where
  carried := by
    obtain hf | ⟨e, he, hf⟩ := h
    · left
      rw [hf, Outcome.whole_map]
    · exact .inr ⟨e, m, he, Outcome.whole_eq_halted.2 ⟨hf, rfl⟩⟩
  again e n hx := by
    obtain ⟨-, rfl⟩ := Outcome.whole_eq_halted.1 hx
    rfl

end Redoable

namespace StringOp

variable {reach : Element → Prop} {lost : Halt → Prop} {g : Machine → Machine}

theorem advance_unnoticed (hg : Machine.UnnoticedWithin reach lost g) (op : StringOp)
    (r : Register) (m : Machine) : op.advance r (g m) = g (op.advance r m) := by
  unfold advance
  rw [hg.flags, hg.get]
  dsimp only
  rw [hg.set]

theorem element_carried (hg : Machine.UnnoticedWithin reach lost g) {op : StringOp} {m : Machine}
    (hop : ∀ e ∈ op.places m, reach e) :
    Carried (fun f => lost (.fault f)) g (op.element m) (op.element (g m)) := by
  unfold places at hop
  unfold element
  simp only [hg.get]
  generalize op.kind = kind at hop ⊢
  cases kind with
  | move =>
    obtain ⟨hsource, hop⟩ := List.forall_mem_cons.1 hop
    obtain ⟨hdestination, -⟩ := List.forall_mem_cons.1 hop
    refine (hg.readWord m _ _ hsource).bind fun v => .ok ?_
    rw [hg.writeWord _ _ _ _ hdestination, advance_unnoticed hg, advance_unnoticed hg]
    rfl
  | compare =>
    obtain ⟨hsource, hop⟩ := List.forall_mem_cons.1 hop
    obtain ⟨hdestination, -⟩ := List.forall_mem_cons.1 hop
    refine (hg.readWord m _ _ hsource).bind fun left =>
      (hg.readWord m _ _ hdestination).bind fun right => .ok ?_
    rw [hg.define, advance_unnoticed hg, advance_unnoticed hg]
    rfl
  | store =>
    refine .ok ?_
    rw [hg.writeWord _ _ _ _ (hop _ List.mem_cons_self), advance_unnoticed hg]
  | load =>
    refine (hg.readWord m _ _ (hop _ List.mem_cons_self)).bind fun v => .ok ?_
    rw [hg.set, advance_unnoticed hg]
    rfl
  | scan =>
    refine (hg.readWord m _ _ (hop _ List.mem_cons_self)).bind fun right => .ok ?_
    rw [hg.define, advance_unnoticed hg]
    rfl

def repeated (op : StringOp) (whileEqual : Bool) (m : Machine) : Outcome :=
  op.loop whileEqual (m.get op.counter).toNat m

theorem get_set_counter {op : StringOp} {m : Machine} {count : Nat}
    (hcount : (m.get op.counter).toNat = count + 1) (n : Machine) :
    ((n.set op.counter (UInt64.ofNat count)).get op.counter).toNat = count := by
  have hlt := m.get_general_lt 1 op.pointerWidth
  change (m.get op.counter).toNat < _ at hlt
  exact n.get_set_general (by omega)

theorem repeated_zero {op : StringOp} {m : Machine} (hcount : (m.get op.counter).toNat = 0)
    (whileEqual : Bool) : op.repeated whileEqual m = .done m := by
  unfold repeated
  rw [hcount]
  rfl

/-- After each element the counter register says how many are left. -/
theorem repeated_succ {op : StringOp} {m : Machine} {count : Nat}
    (hcount : (m.get op.counter).toNat = count + 1) (whileEqual : Bool) :
    op.repeated whileEqual m = match op.element m with
      | .error f => .halted (.fault f) m
      | .ok next =>
        if op.stops whileEqual (next.set op.counter (UInt64.ofNat count)) then
          .done (next.set op.counter (UInt64.ofNat count))
        else op.repeated whileEqual (next.set op.counter (UInt64.ofNat count)) := by
  unfold repeated
  simp only [get_set_counter hcount]
  rw [hcount]
  rfl

theorem repeated_redoable_of_error (hg : Machine.UnnoticedWithin reach lost g) {op : StringOp}
    {m : Machine} (hop : ∀ e ∈ op.places m, reach e) {count : Nat}
    (hcount : (m.get op.counter).toNat = count + 1) {f : Fault} (he : op.element m = .error f)
    (whileEqual : Bool) :
    Redoable lost g (op.repeated whileEqual) m := by
  have hrepeated := repeated_succ hcount whileEqual
  have hrepeated' := repeated_succ ((congrArg _ (hg.get m _)).trans hcount) whileEqual
  rw [he] at hrepeated
  constructor
  · obtain h | ⟨f', hf', h⟩ := element_carried hg hop
    · left
      rw [hrepeated, hrepeated', h, he]
      rfl
    · right
      cases he.symm.trans h
      exact ⟨_, m, hf', hrepeated⟩
  · intro e n hx
    cases hrepeated.symm.trans hx
    rfl

/-- A repetition that faults has counted down the elements it has dealt with, so that it goes on
behind them when it is done again. -/
theorem repeated_redoable (hg : Machine.UnnoticedWithin reach lost g) (op : StringOp)
    (whileEqual : Bool) (m : Machine)
    (hop : ∀ e ∈ op.loopPlaces whileEqual (m.get op.counter).toNat m, reach e) :
    Redoable lost g (op.repeated whileEqual) m := by
  have hstops (n : Machine) : op.stops whileEqual (g n) = op.stops whileEqual n := by
    unfold stops
    rw [hg.flags]
  generalize hcount : (m.get op.counter).toNat = count at hop
  induction count generalizing m with
  | zero =>
    have hdone := repeated_zero hcount whileEqual
    constructor
    · left
      rw [hdone, repeated_zero ((congrArg _ (hg.get m _)).trans hcount)]
      rfl
    · intro e n hx
      cases hdone.symm.trans hx
  | succ count ih =>
    have hrepeated := repeated_succ hcount whileEqual
    have hrepeated' := repeated_succ ((congrArg _ (hg.get m _)).trans hcount) whileEqual
    obtain ⟨hplaces, hrest⟩ := List.forall_mem_append.1 hop
    cases he : op.element m with
    | error f => exact repeated_redoable_of_error hg hplaces hcount he whileEqual
    | ok next =>
      rw [(element_carried hg hplaces).of_ok he] at hrepeated'
      rw [he] at hrepeated hrest
      dsimp only at hrepeated hrepeated' hrest
      rw [hg.set, hstops] at hrepeated'
      by_cases hend : op.stops whileEqual (next.set op.counter (UInt64.ofNat count)) = true
      · rw [if_pos hend] at hrepeated hrepeated'
        constructor
        · left
          rw [hrepeated, hrepeated']
          rfl
        · intro e n hx
          cases hrepeated.symm.trans hx
      · rw [if_neg hend] at hrepeated hrepeated' hrest
        obtain ⟨hcarried, hagain⟩ := ih _ (get_set_counter hcount next) hrest
        constructor
        · rw [hrepeated, hrepeated']
          exact hcarried
        · intro e n hx
          rw [hrepeated']
          exact hagain e n (hrepeated.symm.trans hx)

theorem execute_redoable (hg : Machine.UnnoticedWithin reach lost g) (op : StringOp) (m : Machine)
    (hop : ∀ e ∈ op.elements m, reach e) : Redoable lost g op.execute m := by
  have whole (h : ∀ e ∈ op.places m, reach e) :
      Redoable lost g (fun m => .whole m (LongMode.orFault (op.element m))) m :=
    .whole (element_carried hg h).orFault
  unfold elements at hop
  change Redoable lost g (fun m => op.execute m) m
  unfold execute
  generalize op.repetition = repetition at hop ⊢
  match repetition with
  | some .whileEqual => exact repeated_redoable hg op true m hop
  | some .whileUnequal => exact repeated_redoable hg op false m hop
  | some .lock => exact whole hop
  | none => exact whole hop

end StringOp

namespace Instruction

open Execute

variable {reach : Element → Prop} {lost : Halt → Prop} {g : Machine → Machine}

/-- The stack frame is dropped only once, however often `LEAVE` is begun. -/
theorem leave_redoable (hg : Machine.UnnoticedWithin reach lost g) {w : Width} {m : Machine}
    (hbase : reach ⟨m.get (.basePointer .qword), w⟩) : Redoable lost g (Execute.leave w) m := by
  have hdrop (n : Machine) : (g n).set .stackPointer ((g n).get (.basePointer .qword)) =
      g (n.set .stackPointer (n.get (.basePointer .qword))) := by
    rw [hg.get, hg.set]
  set dropped := m.set .stackPointer (m.get (.basePointer .qword)) with hd
  have htop : dropped.get .stackPointer = m.get (.basePointer .qword) := m.get_set_stackPointer _
  have hagain : dropped.set .stackPointer (dropped.get (.basePointer .qword)) = dropped := by
    have hne : (Register.basePointer .qword).slot ≠ Register.stackPointer.slot := by decide
    have hbase : dropped.get (.basePointer .qword) = m.get (.basePointer .qword) :=
      Register.fetch_set_of_slot_ne hne m.registers _
    rw [hbase, ← htop, Machine.set_get_stackPointer]
  have hreach : reach (dropped.top w) := by
    unfold Machine.top
    rw [htop]
    exact hbase
  have hpop : Carried lost g
      (LongMode.orFault (dropped.pop w) >>= fun s => .ok (s.2.set (.basePointer w) s.1))
      (LongMode.orFault ((g dropped).pop w) >>= fun s => .ok (s.2.set (.basePointer w) s.1)) :=
    (hg.pop dropped hreach).orFault.bind fun s => .ok (hg.set s.2 _ _)
  constructor
  · unfold Execute.leave
    rw [hdrop, ← hd]
    obtain h | ⟨e, he, h⟩ := hpop
    · left
      exact (congrArg (Outcome.whole (g dropped)) h).trans (Outcome.whole_map g dropped _)
    · exact .inr ⟨e, dropped, he, Outcome.whole_eq_halted.2 ⟨h, rfl⟩⟩
  · intro e n hx
    obtain ⟨-, rfl⟩ := Outcome.whole_eq_halted.1 hx
    unfold Execute.leave
    rw [hdrop, hdrop, ← hd, hagain]

/-- An instruction that keeps to the words in `reach` does not notice `g`. -/
theorem execute_redoable_within (hg : Machine.UnnoticedWithin reach lost g) (i : Instruction)
    (frame : Frame) (m : Machine) (hi : ∀ e ∈ i.elements m, reach e)
    (hstack : ∀ e ∈ i.stackElements m, reach e) : Redoable lost g (i.execute frame) m := by
  have both {dst src : Operand} (h : ∀ e ∈ dst.elements m ++ src.elements m, reach e) :
      dst.Within reach m ∧ src.Within reach m := List.forall_mem_append.1 h
  have three {dst src : Operand} {rest : List Element}
      (h : ∀ e ∈ dst.elements m ++ (src.elements m ++ rest), reach e) :
      dst.Within reach m ∧ src.Within reach m ∧ ∀ e ∈ rest, reach e :=
    (List.forall_mem_append.1 h).imp_right List.forall_mem_append.1
  cases i with
  | binary op dst src => exact .whole (binary_carried hg op (both hi).1 (both hi).2)
  | test dst src => exact .whole (test_carried hg (both hi).1 (both hi).2)
  | unary op target => exact .whole (unary_carried hg op hi)
  | multiply signed source => exact .whole (multiply_carried hg signed hi)
  | divide signed source => exact .whole (divide_carried hg signed hi)
  | multiplyInto dst src factor =>
    obtain ⟨hdst, hsrc, hfactor⟩ := three hi
    refine .whole (multiplyInto_carried hg hdst hsrc fun o ho e he => hfactor e ?_)
    exact List.mem_flatMap_of_mem (Option.mem_toList.2 ho) he
  | move dst src => exact .whole (move_carried hg (both hi).1 (both hi).2)
  | moveExtend signed dst src => exact .whole (moveExtend_carried hg signed (both hi).1 (both hi).2)
  | loadAddress dst src =>
    refine .whole (f := fun m => write dst (src.resolve m) m) ?_
    rw [hg.resolve]
    exact write_carried hg hi _
  | exchange a b =>
    obtain ⟨ha, hb, hafter⟩ := three hi
    exact .whole (exchange_carried hg ha hb hafter)
  | exchangeAdd dst src =>
    obtain ⟨hdst, hsrc, hafter⟩ := three hi
    exact .whole (exchangeAdd_carried hg hdst hsrc hafter)
  | moveIf cond dst src => exact .whole (moveIf_carried hg cond (both hi).1 (both hi).2)
  | setIf cond dst =>
    refine .whole (f := Execute.setIf frame cond dst) ?_
    unfold Execute.setIf
    rw [hg.holds]
    exact write_carried hg hi _
  | push source => exact .whole (push_carried hg hi (hstack _ List.mem_cons_self))
  | pop target => exact .whole (pop_carried hg (hstack _ List.mem_cons_self) hi)
  | popFlags w => exact .whole (popFlags_carried hg (hstack _ List.mem_cons_self))
  | leave w => exact leave_redoable hg (hstack _ List.mem_cons_self)
  | jump cond target => exact .whole (jumpIf_carried hg cond hi)
  | call target => exact .whole (call_carried hg hi (hstack _ List.mem_cons_self))
  | ret release => exact .whole (ret_carried hg release (hstack _ List.mem_cons_self))
  | shift op target count => exact .whole (shift_carried hg op (both hi).1 (both hi).2)
  | bitTest op base offset =>
    obtain ⟨hoffset, hbit⟩ := List.forall_mem_append.1 hi
    exact .whole (bitTest_carried hg op hoffset hbit)
  | bitScan reverse dst src => exact .whole (bitScan_carried hg reverse (both hi).1 (both hi).2)
  | string op => exact op.execute_redoable hg m hi
  | swapBytes target =>
    refine .done (f := Execute.swapBytes target) ?_
    unfold Execute.swapBytes
    rw [hg.get, hg.set]
  | widenAccumulator w =>
    refine .done (f := Execute.widenAccumulator w) ?_
    unfold Execute.widenAccumulator
    rw [hg.get, hg.set]
  | spreadSign w =>
    refine .done (f := Execute.spreadSign w) ?_
    unfold Execute.spreadSign
    rw [hg.get, hg.set]
  | pushFlags w =>
    refine .done (f := fun m => m.push w m.flags.toWord) ?_
    rw [hg.flags, hg.push m _ (hstack _ List.mem_cons_self)]
  | flag op =>
    refine .done (f := fun m => m.define (flagResult op m.flags)) ?_
    rw [hg.flags, hg.define]
  | loadFlags =>
    refine .done (f := Execute.loadFlags) ?_
    unfold Execute.loadFlags
    rw [hg.get]
    exact hg.define m _
  | storeFlags =>
    refine .done (f := Execute.storeFlags) ?_
    unfold Execute.storeFlags
    rw [hg.flags, hg.set]
  | nop operand => exact .done (f := fun m => m) rfl

theorem execute_redoable (hg : Machine.Unnoticed lost g) (i : Instruction) (frame : Frame)
    (m : Machine) : Redoable lost g (i.execute frame) m :=
  i.execute_redoable_within (hg.within fun _ => True) frame m (fun _ _ => trivial)
    fun _ _ => trivial

end Instruction

end LongMode

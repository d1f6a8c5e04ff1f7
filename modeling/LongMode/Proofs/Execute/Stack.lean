import LongMode.Proofs.Execute.Outside
import LongMode.Proofs.Execute.Repetition
import LongMode.Proofs.Execute.Target
/-!
The stack. A word that has been pushed is popped again as long as nothing else is written over it,
and whatever is pushed later stands below it. So words come back in reverse order, whatever their
widths and wherever the stack pointer starts, and only the bytes right below it change.
-/

namespace LongMode

namespace Machine

def pushAll (m : Machine) : List (Width × UInt64) → Machine
  | [] => m
  | (w, v) :: rest => (m.push w v).pushAll rest

def popAll (m : Machine) : List Width → Except Fault (List UInt64 × Machine)
  | [] => .ok ([], m)
  | w :: rest => do
    let (v, popped) ← m.pop w
    let (values, last) ← popped.popAll rest
    return (v :: values, last)

def stackSize (items : List (Width × UInt64)) : Nat := (items.map fun i => i.1.bytes).sum

/-- The byte at `x` is one of the `size` bytes right below `top`. -/
def Below (top : UInt64) (size : Nat) (x : UInt64) : Prop :=
  0 < (top - x).toNat ∧ (top - x).toNat ≤ size

instance (top : UInt64) (size : Nat) (x : UInt64) : Decidable (Below top size x) :=
  inferInstanceAs (Decidable (_ ∧ _))

variable {m n : Machine} {w : Width} {v x : UInt64} {size : Nat} {D E : UInt64 → Prop}

theorem wordBytes_le_bytes (w : Width) : w.wordBytes ≤ w.bytes := Nat.min_le_left _ _

theorem toNat_ofNat_bytes (w : Width) : (UInt64.ofNat w.bytes).toNat = w.bytes := by
  cases w <;> rfl

/-- What stands below the word that is pushed stands below the stack pointer from before. -/
theorem below_of_below (h : w.bytes + size < 2 ^ 64) (hx : Below (m.belowTop w).address size x) :
    Below (m.get .stackPointer) (w.bytes + size) x := by
  have hbytes := toNat_ofNat_bytes w
  have htop := (m.get .stackPointer).toNat_lt
  have hlt := x.toNat_lt
  simp only [Below, belowTop, UInt64.toNat_sub, hbytes] at hx ⊢
  omega

/-- A word that is pushed stands below the stack pointer. -/
theorem below_of_covers (hx : (m.belowTop w).Covers x) :
    Below (m.get .stackPointer) (w.bytes + size) x := by
  have hbytes := toNat_ofNat_bytes w
  have hle := wordBytes_le_bytes w
  have hfew : w.bytes ≤ 32 := by cases w <;> decide
  have htop := (m.get .stackPointer).toNat_lt
  have hlt := x.toNat_lt
  simp only [Below, Element.Covers, belowTop, UInt64.toNat_sub, hbytes] at hx ⊢
  omega

/-- What is pushed later is not pushed over the word. -/
theorem belowTop_avoids (h : w.bytes + size < 2 ^ 64) :
    (m.belowTop w).Avoids (Below (m.belowTop w).address size) := by
  intro x hbelow hx
  have hle := wordBytes_le_bytes w
  have htop := (m.belowTop w).address.toNat_lt
  have hlt := x.toNat_lt
  simp only [Below, Element.Covers, UInt64.toNat_sub] at hbelow hx
  have hwidth : (m.belowTop w).width = w := rfl
  rw [hwidth] at hx
  omega

theorem get_push_stackPointer (m : Machine) (w : Width) (v : UInt64) :
    (m.push w v).get .stackPointer = (m.belowTop w).address := m.get_set_stackPointer _

/-- A pushed word is popped in every machine where it still stands, and the registers are those from
before it was pushed. -/
theorem pop_of_push (h : (m.push w v).SameOutside D n) (hD : (m.belowTop w).Avoids D) :
    n.pop w = .ok (v &&& w.mask, { n with registers := m.registers }) := by
  have htop : n.get .stackPointer = (m.belowTop w).address := by
    unfold get
    rw [h.registers]
    exact m.get_push_stackPointer w v
  have hread : n.readWord (m.belowTop w).address w = .ok (v &&& w.mask) :=
    (h.readWord hD).trans (Memory.readWord_writeWord m.memory (m.belowTop w).address w v)
  have hraised : n.set .stackPointer ((m.belowTop w).address + UInt64.ofNat w.bytes) =
      { n with registers := m.registers } := by
    refine congrArg (fun registers => ({ n with registers } : Machine)) ?_
    have hold : (m.belowTop w).address + UInt64.ofNat w.bytes = m.get .stackPointer :=
      UInt64.sub_add_cancel _ _
    rw [h.registers, hold]
    exact (Register.set_set_general 4 .qword m.registers _ _).trans
      (Register.set_fetch_qword 4 m.registers)
  unfold pop
  dsimp only
  rw [htop, hread]
  exact congrArg (fun k => Except.ok (v &&& w.mask, k)) hraised

/-- Nothing but the word is new after it has been pushed and the registers are as they were. -/
theorem SameOutside.of_push (h : (m.push w v).SameOutside D n) (hsub : ∀ x, D x → E x)
    (hword : ∀ x, (m.belowTop w).Covers x → E x) :
    m.SameOutside E { n with registers := m.registers } := by
  have hwritten : m.SameOutside (m.belowTop w).Covers
      (m.write (m.belowTop w).address (LittleEndian.ofWord w.wordBytes v)) :=
    .write (LittleEndian.length_ofWord _ _) m
  exact
    { flags := h.flags
      registers := rfl
      breakpoints := h.breakpoints
      segments := h.segments.trans hwritten.segments
      codeEnd := h.codeEnd.trans hwritten.codeEnd
      strict := h.strict.trans hwritten.strict
      cells := fun x hx => (h.cells x (mt (hsub x) hx)).trans
        (hwritten.cells x (mt (hword x) hx)) }

theorem popAll_append (ws : List Width) (w : Width) {values : List UInt64} {v : UInt64}
    {k : Machine} (h : m.popAll ws = .ok (values, n)) (hk : n.pop w = .ok (v, k)) :
    m.popAll (ws ++ [w]) = .ok (values ++ [v], k) := by
  induction ws generalizing m values with
  | nil =>
    cases h
    rw [List.nil_append, popAll, hk]
    rfl
  | cons u rest ih =>
    rw [popAll] at h
    obtain ⟨⟨v', popped⟩, hpop, h⟩ := ok_of_bind h
    obtain ⟨⟨values', last⟩, hrest, h⟩ := ok_of_bind h
    cases h
    rw [List.cons_append, popAll, hpop]
    dsimp only [ok_bind]
    rw [ih hrest]
    rfl

/-- Values that have been pushed come back in reverse order, each cut off to its width. All
registers are as they were, and so is every byte but those right below the stack pointer. -/
theorem popAll_pushAll (m : Machine) {items : List (Width × UInt64)}
    (h : stackSize items < 2 ^ 64) :
    ∃ n, (m.pushAll items).popAll (items.map Prod.fst).reverse =
        .ok ((items.map fun i => i.2 &&& i.1.mask).reverse, n) ∧
      m.SameOutside (Below (m.get .stackPointer) (stackSize items)) n ∧ n.ip = m.ip := by
  -- the first value is pushed before all others and popped behind them
  induction items generalizing m with
  | nil => exact ⟨m, rfl, .refl m, rfl⟩
  | cons item rest ih =>
    obtain ⟨w, v⟩ := item
    have hsize : stackSize ((w, v) :: rest) = w.bytes + stackSize rest := List.sum_cons
    rw [hsize] at h ⊢
    obtain ⟨n, hpops, hsame, hip⟩ := ih (m.push w v) (by omega)
    rw [m.get_push_stackPointer] at hsame
    have hpop := pop_of_push hsame (belowTop_avoids h)
    refine ⟨{ n with registers := m.registers }, ?_, ?_, hip⟩
    · simp only [List.map_cons, List.reverse_cons]
      exact popAll_append _ w hpops hpop
    · exact hsame.of_push (fun x => below_of_below h) fun x => below_of_covers

end Machine

end LongMode

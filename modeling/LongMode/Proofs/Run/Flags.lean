import LongMode.Proofs.Execute.Flags
import LongMode.Proofs.Run.Iteration
/-!
The flags over steps and runs. A step changes none but the flags that its instruction defines, and
no run leaves a flag undefined that was defined before.
-/

namespace LongMode

/-- The instruction has nothing to do with the flags, or reads them only. -/
def Instruction.SparesFlags : Instruction → Prop
  | move _ _ | moveExtend _ _ _ | loadAddress _ _ | exchange _ _ | moveIf _ _ _ | setIf _ _
  | swapBytes _ | widenAccumulator _ | spreadSign _ | push _ | pop _ | pushFlags _ | leave _
  | jump _ _ | call _ | ret _ | divide _ _ | storeFlags | nop _ => True
  | unary op _ => op = .not
  | string op => op.kind = .move ∨ op.kind = .store ∨ op.kind = .load
  | binary _ _ _ | test _ _ | multiply _ _ | multiplyInto _ _ _ | exchangeAdd _ _ | popFlags _
  | shift _ _ _ | bitTest _ _ _ | bitScan _ _ _ | flag _ | loadFlags => False

theorem Instruction.SparesFlags.defines_eq {i : Instruction} (h : i.SparesFlags) :
    i.defines = [] := by
  cases i with
  | unary op target =>
    obtain rfl : op = .not := h
    rfl
  | string op =>
    have hcompares : op.kind.compares = false := by
      obtain hk | hk | hk : op.kind = .move ∨ op.kind = .store ∨ op.kind = .load := h <;>
        rw [hk] <;> rfl
    simp [defines, StringKind.defines, hcompares]
  | binary | test | multiply | multiplyInto | exchangeAdd | popFlags | shift | bitTest | bitScan
  | flag | loadFlags => exact h.elim
  | _ => rfl

/-- The direction and the interrupt flag are a matter of the instructions that set a flag and of the
one that loads all of them. -/
theorem Instruction.defines_subset (i : Instruction) :
    i.defines ⊆ Flag.ofSum ∨ (∃ op, i = .flag op) ∨ ∃ w, i = .popFlags w := by
  cases i with
  | popFlags w => exact .inr (.inr ⟨w, rfl⟩)
  | flag op => exact .inr (.inl ⟨op, rfl⟩)
  | binary op | unary op | shift op =>
    left
    change op.defines ⊆ Flag.ofSum
    cases op <;> decide
  | string op =>
    left
    change (if op.kind.compares then Flag.ofSum else []) ⊆ Flag.ofSum
    split_ifs
    · exact List.Subset.refl _
    · exact List.nil_subset _
  | test | multiply | multiplyInto | exchangeAdd | bitTest | bitScan | loadFlags =>
    exact .inl (by dsimp only [defines]; decide)
  | _ => exact .inl (List.nil_subset _)

theorem Instruction.eq_of_direction {i : Instruction} (h : .direction ∈ i.defines) :
    i = .flag .clearDirection ∨ i = .flag .setDirection ∨ ∃ w, i = .popFlags w := by
  obtain hsub | ⟨op, rfl⟩ | ⟨w, rfl⟩ := i.defines_subset
  · exact absurd (hsub h) (by decide)
  · cases op <;> simp [defines, FlagOp.defines] at h ⊢
  · exact .inr (.inr ⟨w, rfl⟩)

theorem Instruction.eq_of_interrupt {i : Instruction} (h : .interrupt ∈ i.defines) :
    i = .flag .clearInterrupt ∨ i = .flag .setInterrupt ∨ ∃ w, i = .popFlags w := by
  obtain hsub | ⟨op, rfl⟩ | ⟨w, rfl⟩ := i.defines_subset
  · exact absurd (hsub h) (by decide)
  · cases op <;> simp [defines, FlagOp.defines] at h ⊢
  · exact .inr (.inr ⟨w, rfl⟩)

/-- A shift or a rotation whose count is cut off to nothing touches no flag. -/
theorem Execute.shift_overlaying_nothing {m : Machine} {op : ShiftOp} {target count : Operand}
    (h : ∀ amount, count.read m = .ok amount → Arithmetic.shiftCount amount target.width = 0) :
    Overlaying [] m (shift op target count m) := by
  refine .bind fun v => ?_
  unfold read
  cases hcount : count.read m with
  | error f => exact .error _
  | ok amount =>
    have hnone : Arithmetic.shift op v amount target.width (isOn m.flags.carry) = none :=
      if_pos (h amount hcount)
    rw [orFault_ok]
    dsimp only [ok_bind]
    rw [hnone]
    exact .ok .refl

namespace Machine

variable {s : Settings} {m : Machine} {l : Located} {ks : List Flag}

/-- What holds of the instruction holds of the step, which may also list it or pass over bytes that
encode none. -/
theorem step_overlaid_of (hl : m.locate = .ok l) (h : ∀ i, l.instruction = some i →
      ({ m with ip := l.next } : Machine).Overlaid ks
        (i.execute (frameOf s l) { m with ip := l.next }).machine) :
    m.Overlaid ks (m.step s).machine := by
  have hpast : m.Overlaid ks { m with ip := l.next } := Overlaid.refl (m := m)
  cases hd : s.disassemble with
  | true =>
    rw [step_listing hl hd]
    exact hpast
  | false =>
    cases hi : l.instruction with
    | none =>
      rw [step_unknown hl hd hi]
      exact hpast
    | some i =>
      have hx := hpast.trans (h i hi)
      rw [step_execute hl hd hi]
      cases hn : i.execute (frameOf s l) { m with ip := l.next } with
      | done n | halted e n =>
        rw [hn] at hx
        exact hx

/-- A step lays none but the flags of its instruction over the live ones. -/
theorem step_overlaid (s : Settings) (hl : m.locate = .ok l) :
    m.Overlaid ((l.instruction.map Instruction.defines).getD []) (m.step s).machine := by
  refine step_overlaid_of hl fun i hi => ?_
  rw [hi]
  exact i.execute_overlaid _ _

theorem step_overlaid_all (s : Settings) (m : Machine) :
    m.Overlaid Flag.all (m.step s).machine := by
  cases hl : m.locate with
  | error e =>
    rw [(step_of_error hl).2]
    exact .refl
  | ok l =>
    obtain ⟨p, -, hp⟩ := step_overlaid s hl
    exact ⟨p, p.within_all, hp⟩

theorem runOn_overlaid (s : Settings) (budget : Nat) (m : Machine) (p : Progress) :
    m.Overlaid Flag.all (runOn s budget m p).machine := by
  induction budget generalizing m p with
  | zero => exact .refl
  | succ budget ih =>
    have hstep := step_overlaid_all s m
    rw [runOn_succ]
    split_ifs
    · exact hstep
    · exact hstep
    · exact hstep
    · exact hstep.trans (ih _ _)
    · exact .refl

/-- The flags that a step at this encoding leaves alone. -/
structure OwnFlags (s : Settings) (m : Machine) (l : Located) : Prop where
  direction : (m.step s).machine.flags.direction ≠ m.flags.direction →
    ∃ i, l.instruction = some i ∧
      (i = .flag .clearDirection ∨ i = .flag .setDirection ∨ ∃ w, i = .popFlags w)
  interrupt : (m.step s).machine.flags.interrupt ≠ m.flags.interrupt →
    ∃ i, l.instruction = some i ∧
      (i = .flag .clearInterrupt ∨ i = .flag .setInterrupt ∨ ∃ w, i = .popFlags w)
  unknown : l.instruction = none → (m.step s).machine.flags = m.flags
  spared : ∀ i, l.instruction = some i → i.SparesFlags → (m.step s).machine.flags = m.flags
  /-- A shift or a rotation by nothing. -/
  unshifted : ∀ op target count, l.instruction = some (.shift op target count) →
    (∀ amount, count.read { m with ip := l.next } = .ok amount →
      Arithmetic.shiftCount amount target.width = 0) → (m.step s).machine.flags = m.flags
  counted : ∀ op target, l.instruction = some (.unary op target) → op = .inc ∨ op = .dec →
    (m.step s).machine.flags.carry = m.flags.carry
  rotated : ∀ op target count, l.instruction = some (.shift op target count) →
    op = .rol ∨ op = .ror ∨ op = .rcl ∨ op = .rcr → ∀ k, k ≠ .carry → k ≠ .overflow →
      (m.step s).machine.flags.get k = m.flags.get k
  bitTested : ∀ op base offset, l.instruction = some (.bitTest op base offset) →
    ∀ k, k ≠ .carry → (m.step s).machine.flags.get k = m.flags.get k
  bitScanned : ∀ reverse dst src, l.instruction = some (.bitScan reverse dst src) →
    ∀ k, k ≠ .zero → (m.step s).machine.flags.get k = m.flags.get k
  multiplied : ∀ i, l.instruction = some i →
    ((∃ signed source, i = .multiply signed source) ∨
      ∃ dst src factor, i = .multiplyInto dst src factor) →
    ∀ k, k ≠ .carry → k ≠ .overflow → (m.step s).machine.flags.get k = m.flags.get k
  loaded : l.instruction = some .loadFlags → ∀ k, k = .overflow ∨ k = .direction ∨ k = .interrupt →
    (m.step s).machine.flags.get k = m.flags.get k

theorem ownFlags_of_locate (s : Settings) (hl : m.locate = .ok l) : m.OwnFlags s l := by
  have hover := step_overlaid s hl
  -- a flag that the instruction does not define
  have hget {i : Instruction} (hi : l.instruction = some i) {k : Flag} (hk : k ∉ i.defines) :
      (m.step s).machine.flags.get k = m.flags.get k := by
    rw [hi] at hover
    exact hover.get hk
  have hchanged {k : Flag} (hk : (m.step s).machine.flags.get k ≠ m.flags.get k) :
      ∃ i, l.instruction = some i ∧ k ∈ i.defines := by
    cases hi : l.instruction with
    | none =>
      rw [hi] at hover
      exact absurd (hover.get List.not_mem_nil) hk
    | some i => exact ⟨i, rfl, by_contra fun hn => hk (hget hi hn)⟩
  constructor
  case direction =>
    intro h
    obtain ⟨i, hi, hmem⟩ := hchanged (k := .direction) h
    exact ⟨i, hi, i.eq_of_direction hmem⟩
  case interrupt =>
    intro h
    obtain ⟨i, hi, hmem⟩ := hchanged (k := .interrupt) h
    exact ⟨i, hi, i.eq_of_interrupt hmem⟩
  case unknown =>
    intro hi
    rw [hi] at hover
    exact hover.flags_eq
  case spared =>
    intro i hi hspares
    rw [hi, Option.map_some, Option.getD_some, hspares.defines_eq] at hover
    exact hover.flags_eq
  case unshifted =>
    intro op target count hi hcount
    refine Overlaid.flags_eq (step_overlaid_of hl fun i hi' => ?_)
    obtain rfl : i = .shift op target count := Option.some.inj (hi'.symm.trans hi)
    exact (Execute.shift_overlaying_nothing hcount).whole
  case counted =>
    rintro op target hi (rfl | rfl) <;>
      exact hget (k := .carry) hi (by simp [Instruction.defines, UnaryOp.defines])
  case rotated =>
    rintro op target count hi (rfl | rfl | rfl | rfl) k hc ho <;>
      exact hget hi (by simp [Instruction.defines, ShiftOp.defines, hc, ho])
  case bitTested =>
    intro op base offset hi k hc
    exact hget hi (by simp [Instruction.defines, hc])
  case bitScanned =>
    intro reverse dst src hi k hz
    exact hget hi (by simp [Instruction.defines, hz])
  case multiplied =>
    rintro i hi (⟨signed, source, rfl⟩ | ⟨dst, src, factor, rfl⟩) k hc ho <;>
      exact hget hi (by simp [Instruction.defines, hc, ho])
  case loaded =>
    rintro hi k (rfl | rfl | rfl) <;> exact hget hi (by decide)

/-- Every instruction changes only the flags that it owns, and a flag that is defined is defined
after every instruction, every step and every run. -/
theorem flags_owned (s : Settings) (m : Machine) :
    (∀ l, m.locate = .ok l → m.OwnFlags s l) ∧
    (∀ e, m.locate = .error e → (m.step s).machine.flags = m.flags) ∧
    ∀ k, (m.flags.get k).isSome →
      (∀ i frame, ((Instruction.execute i frame m).machine.flags.get k).isSome) ∧
      ((m.step s).machine.flags.get k).isSome ∧
      ∀ budget, ((m.runFor s budget).machine.flags.get k).isSome := by
  refine ⟨fun l hl => ownFlags_of_locate s hl, fun e he => by rw [(step_of_error he).2],
    fun k hk => ⟨fun i frame => ?_, ?_, fun budget => ?_⟩⟩
  · exact (i.execute_overlaid frame m).isSome hk
  · exact (step_overlaid_all s m).isSome hk
  · exact (runOn_overlaid s _ m {}).isSome hk

/-- `ROL AL, 32` and `INC AL`, with some flags on and the others undefined. -/
def fullTurn (ip : UInt64) : Machine :=
  { ofCode [0xC0, 0xC0, 0x20, 0xFE, 0xC0] with
    ip, flags := { carry := some true, sign := some true, direction := some true } }

/-- A count of 32 is a count of nothing; counting up keeps the carry, and a run of both does not
lose the direction. -/
theorem fullTurn_spared :
    ((fullTurn 0x1000).step .execute).machine.flags = (fullTurn 0x1000).flags ∧
      ((fullTurn 0x1003).step .execute).machine.flags.carry = some true ∧
      (((fullTurn 0x1000).runFor .execute 2).machine.flags.get .direction).isSome := by
  obtain ⟨hrotate, -, hrun⟩ := flags_owned .execute (fullTurn 0x1000)
  obtain ⟨hcount, -, -⟩ := flags_owned .execute (fullTurn 0x1003)
  let target : Operand := .register ⟨.general, 0, .byte, false⟩
  have hl : (fullTurn 0x1000).locate = .ok ⟨0x1000, {}, .oneByte, 0xC0,
      some (.shift .rol target (.immediate ⟨0x20, .byte, false⟩)), 0x1003⟩ := by rfl
  have hl' : (fullTurn 0x1003).locate = .ok ⟨0x1003, {}, .oneByte, 0xFE,
      some (.unary .inc target), 0x1005⟩ := by rfl
  refine ⟨(hrotate _ hl).unshifted _ _ _ rfl fun amount hamount => ?_,
    (hcount _ hl').counted _ _ rfl (.inl rfl), (hrun .direction rfl).2.2 2⟩
  obtain rfl : 0x20 = amount := Except.ok.inj hamount
  change Arithmetic.shiftCount 0x20 .byte = 0
  decide +kernel

end Machine

end LongMode

import LongMode.Proofs.Encoding.Named
/-!
Where the operands of an instruction come from. An operand in memory is the one that the ModRM byte
right behind the opcode names; every other operand is a general register or an immediate. Where the
operands of an instruction have to be of one width, they are.
-/

namespace LongMode

namespace Operand

def Encoded (mods : Modifiers) (f : Fetch) (a : UInt64) (w : Width) : Operand → Prop
  | register r => r.bank = .general ∧ r.width = w
  | memory p => ∃ v form d next,
      ModRm.decode mods w v form f a = .ok (d, next) ∧ d.destination = .memory p
  | immediate i => i.width = w

end Operand

namespace Instruction

/-- The widths that the operands have beside each other and under the modifiers. -/
def Agree (mods : Modifiers) : Instruction → Prop
  | binary _ dst src | test dst src => src.width = dst.width
  | bitTest _ base offset =>
    base.width = mods.operandWidth false ∧ (offset.isRegister → offset.width = base.width)
  | moveIf _ dst src => ∃ r : Register, dst = .register r ∧ r.bank = .general ∧ src.width = r.width
  | multiplyInto dst src factor => ∃ r : Register, dst = .register r ∧ r.bank = .general ∧
    src.width = r.width ∧ ∀ f ∈ factor, f.width = r.width
  | string op => op.pointerWidth = mods.addressWidth
  | _ => True

/-- The instruction of an encoding that has its operand bytes at `a`. -/
structure Encoded (mods : Modifiers) (f : Fetch) (a : UInt64) (i : Instruction) : Prop where
  operands : ∀ o ∈ i.named, ∃ w, o.Encoded mods f a w
  agree : i.Agree mods

end Instruction

namespace Decoder

variable {α β : Type} {Q : α → Prop} {R : β → Prop} {f : Fetch} {a : UInt64}

def GivesAt (d : Decoder α) (f : Fetch) (a : UInt64) (Q : α → Prop) : Prop :=
  ∀ x next, d f a = .ok (x, next) → Q x

theorem Gives.at {d : Decoder α} (h : d.Gives Q) : d.GivesAt f a Q := fun x next hx => h f a x next hx

/-- What stands behind the first part does not matter to the property. -/
theorem GivesAt.bind {d : Decoder α} {g : α → Decoder β} (hd : d.GivesAt f a Q)
    (hg : ∀ x, Q x → (g x).Gives R) : (d >>= g).GivesAt f a R := by
  intro y next h
  obtain ⟨s, hs, hy⟩ := ok_of_bind h
  exact hg s.1 (hd _ _ hs) _ _ _ _ hy

/-- A byte that is only looked at leaves the place as it is. -/
theorem GivesAt.ahead {g : Nat → Decoder β} (hg : ∀ index, (g index).GivesAt f a R) :
    (Opcodes.groupIndex >>= g).GivesAt f a R := by
  intro y next h
  obtain ⟨⟨index, b⟩, hs, hy⟩ := ok_of_bind h
  obtain rfl : b = a := by
    cases hb : f a with
    | error e => rw [Opcodes.groupIndex, bind_apply, peek_of_error hb] at hs; cases hs
    | ok byte => rw [Opcodes.groupIndex, bind_apply, peek_of_ok hb] at hs; cases hs; rfl
  exact hg index _ _ hy

theorem GivesAt.and {d : Decoder α} {P : α → Prop} (hp : d.GivesAt f a P) (hq : d.GivesAt f a Q) :
    d.GivesAt f a fun x => P x ∧ Q x := fun x next h => ⟨hp x next h, hq x next h⟩

theorem GivesAt.map {d : Decoder α} {g : α → β} (hd : d.GivesAt f a Q) (hg : ∀ x, Q x → R (g x)) :
    (g <$> d).GivesAt f a R := hd.bind fun x hx => .pure (hg x hx)

end Decoder

open Decoder

namespace Operand

variable {mods : Modifiers} {f : Fetch} {a : UInt64} {w : Width} {o : Operand}

theorem Encoded.width_eq (h : o.Encoded mods f a w) : o.width = w := by
  cases o with
  | register r => exact h.2
  | memory p =>
    obtain ⟨v, form, d, next, hd, hp⟩ := h
    have hfits := ((ModRm.decode_reads mods w v form).ok hd).1
    rw [← hp]
    exact hfits.width
  | immediate i => exact h

end Operand

variable {mods : Modifiers} {f : Fetch} {a : UInt64}

theorem Immediate.decode_gives_width (w : Width) {form : Form} (h : form.relative = false) :
    (decode w form).Gives fun i => i.width = w := by
  refine .skip fun raw => ?_
  simp only [h, Bool.false_eq_true, if_false]
  exact .pure rfl

theorem ModRm.decode_gives_source (mods : Modifiers) (w v : Width) {form : Form}
    (h : form.extended = false) :
    (decode mods w v form).Gives fun d => ∃ r : Register, d.source = some (.register r) :=
  .skip fun _ => .skip fun _ => .pure (by simp [h])

theorem ModRm.decodeOperand_gives_place (mods : Modifiers) (mode field : Nat) (w : Width) :
    (decodeOperand mods mode field w).Gives fun o =>
      (∃ r : Register, o = .register r ∧ r.bank = .general ∧ r.width = w) ∨ ∃ p, o = .memory p := by
  unfold decodeOperand
  split_ifs
  · exact .pure (.inl ⟨_, rfl, rfl, rfl⟩)
  · exact .skip fun based => .skip fun p => .pure (.inr ⟨p, rfl⟩)

/-- Both operands of a ModRM byte. -/
theorem ModRm.decode_encoded (mods : Modifiers) (w v : Width) (form : Form) :
    (decode mods w v form).GivesAt f a fun d => d.destination.Encoded mods f a w ∧
      ∀ o ∈ d.source, o.Encoded mods f a v := by
  intro d next h
  have hgives : (decode mods w v form).Gives fun d =>
      ((∃ r : Register, d.destination = .register r ∧ r.bank = .general ∧ r.width = w) ∨
        ∃ p, d.destination = .memory p) ∧ ∀ o ∈ d.source, o.Encoded mods f a v := by
    refine .skip fun byte => (decodeOperand_gives_place mods _ _ w).bind fun o ho => .pure ⟨ho, ?_⟩
    intro src hsrc
    dsimp only at hsrc
    split_ifs at hsrc
    · cases hsrc
    · cases hsrc
      exact ⟨rfl, rfl⟩
  obtain ⟨⟨r, hr, hbank, hwidth⟩ | ⟨p, hp⟩, hsource⟩ := hgives f a d next h
  · refine ⟨?_, hsource⟩
    rw [hr]
    exact ⟨hbank, hwidth⟩
  · refine ⟨?_, hsource⟩
    rw [hp]
    exact ⟨v, form, d, next, h, hp⟩

namespace Opcodes

def BothEncoded (mods : Modifiers) (f : Fetch) (a : UInt64) (w : Width) (p : Operand × Operand) :
    Prop := p.1.Encoded mods f a w ∧ p.2.Encoded mods f a w

theorem pair_encoded {form : Form} {parts : List Part} {w : Width}
    (h : ∀ o ∈ Parts.operands parts, o.Encoded mods f a w) :
    (Decoder.ofExcept (Parts.pair form parts)).Gives (BothEncoded mods f a w) :=
  .ofExcept fun p hp => by
    obtain ⟨hdst, hsrc⟩ := Parts.mem_of_pair hp
    exact ⟨h _ hdst, h _ hsrc⟩

theorem modRm_encoded {d : ModRm} {w : Width} (h : d.destination.Encoded mods f a w ∧
    ∀ o ∈ d.source, o.Encoded mods f a w) :
    ∀ o ∈ Parts.operands [.modRm d], o.Encoded mods f a w := by
  intro o ho
  rw [Parts.operands, List.flatMap_cons, List.flatMap_nil, List.append_nil] at ho
  rcases List.mem_cons.1 ho with rfl | ho
  · exact h.1
  · exact h.2 o (Option.mem_toList.1 ho)

theorem modRmPair_encoded (mods : Modifiers) (form : Form) :
    (modRmPair mods form).GivesAt f a
      (BothEncoded mods f a (mods.operandWidth form.byteSized)) :=
  (ModRm.decode_encoded mods _ _ form).bind fun _ hd => pair_encoded (modRm_encoded hd)

def IntoRegister (mods : Modifiers) (f : Fetch) (a : UInt64) (w : Width) (p : Operand × Operand) :
    Prop :=
  p.2.Encoded mods f a w ∧ ∃ r : Register, p.1 = .register r ∧ r.bank = .general ∧ r.width = w

theorem pair_intoRegister {d : ModRm} {w : Width} (h : d.destination.Encoded mods f a w ∧
    ∀ o ∈ d.source, o.Encoded mods f a w) (hr : ∃ r : Register, d.source = some (.register r)) :
    (Decoder.ofExcept (Parts.pair { swapped := true } [.modRm d])).Gives
      (IntoRegister mods f a w) := by
  obtain ⟨r, hsource⟩ := hr
  refine .ofExcept fun p hp => ?_
  simp [Parts.pair, Parts.operands, Part.operands, hsource] at hp
  cases hp
  exact ⟨h.1, r, rfl, h.2 _ hsource⟩

theorem modRmPair_intoRegister (mods : Modifiers) :
    (modRmPair mods { swapped := true }).GivesAt f a
      (IntoRegister mods f a (mods.operandWidth false)) :=
  ((ModRm.decode_encoded mods _ _ _).and (Gives.at (ModRm.decode_gives_source mods _ _ rfl))).bind
    fun _ hd => pair_intoRegister hd.1 hd.2

theorem modRmOperand_encoded (mods : Modifiers) (w : Width) :
    (modRmOperand mods w).GivesAt f a (Operand.Encoded mods f a w) :=
  (ModRm.decode_encoded mods w w _).bind fun _ hd => .pure hd.1

theorem modRmImmediate_encoded (mods : Modifiers) {form : Form} (h : form.relative = false) :
    (modRmImmediate mods form).GivesAt f a
      (BothEncoded mods f a (mods.operandWidth form.byteSized)) :=
  (ModRm.decode_encoded mods _ _ _).bind fun _ hd =>
    (Immediate.decode_gives_width _ h).bind fun i hi => pair_encoded (by
      intro o ho
      simp only [Parts.operands, List.flatMap_cons, List.flatMap_nil, List.append_nil,
        List.mem_append] at ho
      rcases ho with ho | ho
      · exact modRm_encoded hd o (by simpa [Parts.operands] using ho)
      · obtain rfl := List.mem_singleton.1 ho
        exact hi)

theorem accumulatorImmediate_encoded (mods : Modifiers) {form : Form} (h : form.relative = false) :
    (accumulatorImmediate mods form).Gives
      (BothEncoded mods f a (mods.operandWidth form.byteSized)) :=
  (Immediate.decode_gives_width _ h).bind fun i hi => pair_encoded (by
    intro o ho
    rcases List.mem_cons.1 ho with rfl | ho
    · exact ⟨rfl, rfl⟩
    · obtain rfl := List.mem_singleton.1 ho
      exact hi)

theorem immediate_encoded (i : Immediate) :
    ∃ w, (Operand.immediate i).Encoded mods f a w := ⟨i.width, rfl⟩

theorem register_encoded {r : Register} (h : r.bank = .general) :
    ∃ w, (Operand.register r).Encoded mods f a w := ⟨r.width, h, rfl⟩

/-! Instructions by the number of their operands. -/

section

variable {i : Instruction} {dst src target : Operand}

theorem encoded_none (h : i.named = []) (ha : i.Agree mods) : i.Encoded mods f a where
  operands o ho := by
    rw [h] at ho
    cases ho
  agree := ha

theorem encoded_single (h : i.named = [target]) (ht : ∃ w, target.Encoded mods f a w)
    (ha : i.Agree mods) : i.Encoded mods f a where
  operands o ho := by
    rw [h] at ho
    obtain rfl := List.mem_singleton.1 ho
    exact ht
  agree := ha

theorem encoded_pair (h : i.named = [dst, src]) (hdst : ∃ w, dst.Encoded mods f a w)
    (hsrc : ∃ w, src.Encoded mods f a w) (ha : i.Agree mods) : i.Encoded mods f a where
  operands o ho := by
    rw [h] at ho
    rcases List.mem_cons.1 ho with rfl | ho
    · exact hdst
    · obtain rfl := List.mem_singleton.1 ho
      exact hsrc
  agree := ha

end

def AnyEncoded (mods : Modifiers) (f : Fetch) (a : UInt64) (o : Option Instruction) : Prop :=
  ∀ i ∈ o, i.Encoded mods f a

theorem some_encoded {i : Instruction} (h : i.Encoded mods f a) :
    (pure (some i) : Decoder (Option Instruction)).Gives (AnyEncoded mods f a) :=
  .pure fun _ hi => by cases hi; exact h

theorem none_encoded : (pure none : Decoder (Option Instruction)).Gives (AnyEncoded mods f a) :=
  .pure fun _ hi => by cases hi

theorem map_some_encoded {d : Decoder Instruction}
    (h : d.GivesAt f a (Instruction.Encoded mods f a)) :
    (some <$> d).GivesAt f a (AnyEncoded mods f a) :=
  h.map fun _ hx _ hi => by cases hi; exact hx

/-- An instruction made of two operands of one width. -/
theorem make_encoded {w : Width} (make : Operand → Operand → Instruction)
    (h : ∀ dst src, (make dst src).named = [dst, src])
    (ha : ∀ dst src, dst.width = w → src.width = w → (make dst src).Agree mods) {p : Operand × Operand}
    (hp : BothEncoded mods f a w p) : (make p.1 p.2).Encoded mods f a :=
  encoded_pair (h _ _) ⟨w, hp.1⟩ ⟨w, hp.2⟩ (ha _ _ hp.1.width_eq hp.2.width_eq)

theorem onPair_encoded (mods : Modifiers) (form : Form) {make : Operand → Operand → Instruction}
    (h : ∀ dst src, (make dst src).named = [dst, src])
    (ha : ∀ dst src, dst.width = mods.operandWidth form.byteSized →
      src.width = mods.operandWidth form.byteSized → (make dst src).Agree mods) :
    (onPair mods form make).GivesAt f a (AnyEncoded mods f a) :=
  (modRmPair_encoded mods form).bind fun _ hp => some_encoded (make_encoded make h ha hp)

/-- An instruction that goes to the register of the register field. -/
theorem onRegister_encoded (mods : Modifiers) {make : Operand → Operand → Instruction}
    (h : ∀ dst src, (make dst src).named = [dst, src])
    (ha : ∀ (r : Register) src, r.bank = .general → src.width = r.width →
      (make (.register r) src).Agree mods) :
    (onPair mods { swapped := true } make).GivesAt f a (AnyEncoded mods f a) := by
  refine (modRmPair_intoRegister mods).bind fun p hp => some_encoded ?_
  obtain ⟨dst, src⟩ := p
  obtain ⟨hsrc, r, rfl, hbank, hwidth⟩ := hp
  exact encoded_pair (h _ _) (register_encoded hbank) ⟨_, hsrc⟩
    (ha r src hbank (hsrc.width_eq.trans hwidth.symm))

theorem widening_encoded (mods : Modifiers) (w : Width) (signed : Bool) :
    (widening mods w signed).GivesAt f a (Instruction.Encoded mods f a) := by
  refine (ModRm.decode_encoded mods _ _ _).bind fun d hd => ?_
  have hpair : (Decoder.ofExcept (Parts.pair { swapped := true } [.modRm d])).Gives fun p =>
      (∃ w, p.1.Encoded mods f a w) ∧ ∃ w, p.2.Encoded mods f a w := by
    refine .ofExcept fun p hp => ?_
    have hall : ∀ o ∈ Parts.operands [.modRm d], ∃ w, o.Encoded mods f a w := by
      intro o ho
      rw [Parts.operands, List.flatMap_cons, List.flatMap_nil, List.append_nil] at ho
      rcases List.mem_cons.1 ho with rfl | ho
      · exact ⟨_, hd.1⟩
      · exact ⟨_, hd.2 o (Option.mem_toList.1 ho)⟩
    obtain ⟨hdst, hsrc⟩ := Parts.mem_of_pair hp
    exact ⟨hall _ hdst, hall _ hsrc⟩
  exact hpair.bind fun p hp => .pure (encoded_pair rfl hp.1 hp.2 trivial)

theorem classic_encoded (mods : Modifiers) (opcode : Nat) :
    (classic mods opcode).GivesAt f a (Instruction.Encoded mods f a) := by
  have hmake {w : Width} {p : Operand × Operand} (hp : BothEncoded mods f a w p) :
      (Instruction.binary (.ofIndex (opcode / 8)) p.1 p.2).Encoded mods f a :=
    make_encoded (.binary _) (fun _ _ => rfl) (fun _ _ hd hs => hs.trans hd.symm) hp
  unfold classic
  dsimp only
  split
  iterate 4 exact (modRmPair_encoded mods _).bind fun _ hp => .pure (hmake hp)
  · exact (accumulatorImmediate_encoded mods rfl).at.bind fun _ hp => .pure (hmake hp)

theorem immediateGroup_encoded (mods : Modifiers) (opcode : Nat) :
    (immediateGroup mods opcode).GivesAt f a (Instruction.Encoded mods f a) :=
  .ahead fun _ => (modRmImmediate_encoded mods rfl).bind fun _ hp =>
    .pure (make_encoded (.binary _) (fun _ _ => rfl) (fun _ _ hd hs => hs.trans hd.symm) hp)

theorem productImmediate_encoded (mods : Modifiers) (opcode : Nat) :
    (productImmediate mods opcode).GivesAt f a (Instruction.Encoded mods f a) := by
  refine ((ModRm.decode_encoded mods _ _ _).and
    (Gives.at (ModRm.decode_gives_source mods _ _ rfl))).bind fun d hd =>
      (Immediate.decode_gives_width _ rfl).bind fun i hi =>
        (pair_intoRegister hd.1 hd.2).bind fun p hp => .pure ?_
  obtain ⟨dst, src⟩ := p
  obtain ⟨hsrc, r, rfl, hbank, hwidth⟩ := hp
  refine ⟨fun o ho => ?_, r, rfl, hbank, hsrc.width_eq.trans hwidth.symm, fun o ho => ?_⟩
  · rcases List.mem_cons.1 ho with rfl | ho
    · exact register_encoded hbank
    · rcases List.mem_cons.1 ho with rfl | ho
      · exact ⟨_, hsrc⟩
      · obtain rfl := List.mem_singleton.1 ho
        exact immediate_encoded i
  · cases ho
    exact hi.trans hwidth.symm

theorem addressOf_encoded (mods : Modifiers) :
    (addressOf mods).GivesAt f a (AnyEncoded mods f a) := by
  refine (ModRm.decode_encoded mods _ _ _).bind fun d hd => ?_
  split
  case h_1 p dst hp hdst =>
    have hmemory := hd.1
    rw [hp] at hmemory
    exact some_encoded (encoded_pair rfl ⟨_, hd.2 dst hdst⟩ ⟨_, hmemory⟩ trivial)
  case h_2 => exact none_encoded

theorem memberZero_encoded {d : Decoder Instruction}
    (h : d.GivesAt f a (Instruction.Encoded mods f a)) :
    (memberZero d).GivesAt f a (AnyEncoded mods f a) := by
  refine .ahead fun index => ?_
  split_ifs
  · exact map_some_encoded h
  · exact none_encoded.at

/-- An instruction with one operand, the one of a ModRM byte. -/
theorem operand_encoded (mods : Modifiers) (w : Width) {make : Operand → Instruction}
    (h : ∀ o, (make o).named = [o]) (ha : ∀ o, (make o).Agree mods) :
    (modRmOperand mods w >>= fun o => (pure (make o) : Decoder _)).GivesAt f a
      (Instruction.Encoded mods f a) :=
  (modRmOperand_encoded mods w).bind fun o ho => .pure (encoded_single (h o) ⟨w, ho⟩ (ha o))

theorem shiftGroup_encoded (mods : Modifiers) (opcode : Nat) :
    (shiftGroup mods opcode).GivesAt f a (Instruction.Encoded mods f a) := by
  refine .ahead fun index => (modRmOperand_encoded mods _).bind fun target ht => ?_
  split_ifs
  · exact .skip fun i => .pure (encoded_pair rfl ⟨_, ht⟩ (immediate_encoded i) trivial)
  · exact .pure (encoded_pair rfl ⟨_, ht⟩ (immediate_encoded _) trivial)
  · exact .pure (encoded_pair rfl ⟨_, ht⟩ (register_encoded rfl) trivial)

theorem unaryGroup_encoded (mods : Modifiers) (opcode : Nat) :
    (unaryGroup mods opcode).GivesAt f a (Instruction.Encoded mods f a) := by
  refine .ahead fun index => ?_
  split_ifs
  · exact (modRmImmediate_encoded mods rfl).bind fun _ hp =>
      .pure (make_encoded .test (fun _ _ => rfl) (fun _ _ hd hs => hs.trans hd.symm) hp)
  · refine (modRmOperand_encoded mods _).bind fun target ht => ?_
    split <;> exact .pure (encoded_single rfl ⟨_, ht⟩ trivial)

theorem incrementGroup_encoded (mods : Modifiers) (opcode : Nat) :
    (incrementGroup mods opcode).GivesAt f a (AnyEncoded mods f a) := by
  refine .ahead fun index => ?_
  split
  iterate 5
    exact (modRmOperand_encoded mods _).bind fun o ho =>
      some_encoded (encoded_single rfl ⟨_, ho⟩ trivial)
  · exact none_encoded.at

theorem bitGroup_encoded (mods : Modifiers) :
    (bitGroup mods).GivesAt f a (AnyEncoded mods f a) := by
  refine .ahead fun index => ?_
  have hmember (op : BitOp) : (do
      let base ← modRmOperand mods (mods.operandWidth false)
      let i ← Immediate.decode .byte {}
      return some (Instruction.bitTest op base (.immediate i)) : Decoder _).GivesAt f a
        (AnyEncoded mods f a) :=
    (modRmOperand_encoded mods _).bind fun o ho => .skip fun i =>
      some_encoded (encoded_pair rfl ⟨_, ho⟩ (immediate_encoded i) ⟨ho.width_eq, nofun⟩)
  split
  iterate 4 exact hmember _
  · exact none_encoded.at

theorem branch_encoded (short : Bool) {make : Operand → Instruction} (h : ∀ o, (make o).named = [o])
    (ha : ∀ o, (make o).Agree mods) :
    (branchTarget short >>= fun o => (pure (some (make o)) : Decoder _)).Gives
      (AnyEncoded mods f a) := by
  have htarget : (branchTarget short).Gives fun o => ∃ w, o.Encoded mods f a w :=
    .skip fun i => .pure (immediate_encoded i)
  exact htarget.bind fun o ho => some_encoded (encoded_single (h o) ho (ha o))

theorem oneByteSingle_encoded (mods : Modifiers) (opcode : Nat) :
    (oneByteSingle mods opcode).GivesAt f a (AnyEncoded mods f a) := by
  have hpush (w : Width) (form : Form) : (Immediate.decode w form >>= fun i =>
      (pure (some (.push (.immediate i))) : Decoder _)).Gives (AnyEncoded mods f a) :=
    .skip fun i => some_encoded (encoded_single rfl (immediate_encoded i) trivial)
  have hplain {i : Instruction} (h : i.named = []) (ha : i.Agree mods) :
      (pure (some i) : Decoder (Option Instruction)).GivesAt f a (AnyEncoded mods f a) :=
    Gives.at (some_encoded (encoded_none h ha))
  have htest (form : Form) (hf : form.relative = false) :
      (accumulatorImmediate mods form >>= fun p =>
        (pure (some (.test p.1 p.2)) : Decoder _)).Gives (AnyEncoded mods f a) :=
    (accumulatorImmediate_encoded mods hf).bind fun _ hp =>
      some_encoded (make_encoded .test (fun _ _ => rfl) (fun _ _ hd hs => hs.trans hd.symm) hp)
  unfold oneByteSingle
  dsimp only
  -- the rows in the order of the table
  split
  · exact map_some_encoded (widening_encoded mods _ _)
  · exact (hpush _ _).at
  iterate 2 exact map_some_encoded (productImmediate_encoded mods _)
  · exact (hpush _ _).at
  iterate 3 exact map_some_encoded (immediateGroup_encoded mods _)
  iterate 2 exact onPair_encoded mods _ (fun _ _ => rfl) fun _ _ hd hs => hs.trans hd.symm
  iterate 6 exact onPair_encoded mods _ (fun _ _ => rfl) fun _ _ _ _ => trivial
  · exact addressOf_encoded mods
  · exact memberZero_encoded (operand_encoded mods _ (fun _ => rfl) fun _ => trivial)
  iterate 6 exact hplain rfl trivial
  iterate 4 exact hplain rfl rfl
  iterate 2 exact (htest _ rfl).at
  iterate 6 exact hplain rfl rfl
  iterate 6 exact map_some_encoded (shiftGroup_encoded mods _)
  · exact Gives.at (.skip fun _ => some_encoded (encoded_none rfl trivial))
  · exact hplain rfl trivial
  iterate 2
    exact memberZero_encoded ((modRmImmediate_encoded mods rfl).bind fun _ hp =>
      .pure (make_encoded .move (fun _ _ => rfl) (fun _ _ _ _ => trivial) hp))
  · exact hplain rfl trivial
  iterate 4 exact Gives.at (branch_encoded _ (fun _ => rfl) fun _ => trivial)
  · exact hplain rfl trivial
  iterate 2 exact map_some_encoded (unaryGroup_encoded mods _)
  iterate 6 exact hplain rfl trivial
  iterate 2 exact incrementGroup_encoded mods _
  · exact none_encoded.at

theorem oneByte_encoded (mods : Modifiers) (opcode : Nat) :
    (oneByte mods opcode).GivesAt f a (AnyEncoded mods f a) := by
  have hregister (w : Width) :
      ∃ v, (Operand.register (opcodeRegister mods opcode w)).Encoded mods f a v :=
    register_encoded rfl
  unfold oneByte
  dsimp only
  split_ifs
  · exact map_some_encoded (classic_encoded mods _)
  iterate 2 exact Gives.at (some_encoded (encoded_single rfl (hregister _) trivial))
  · exact Gives.at (branch_encoded _ (fun _ => rfl) fun _ => trivial)
  · exact Gives.at (some_encoded (encoded_none rfl trivial))
  · exact Gives.at (some_encoded (encoded_pair rfl (hregister _) (register_encoded rfl) trivial))
  iterate 2
    exact Gives.at (.skip fun i =>
      some_encoded (encoded_pair rfl (hregister _) (immediate_encoded i) trivial))
  · exact oneByteSingle_encoded mods opcode

theorem twoByte_encoded (mods : Modifiers) (opcode : Nat) :
    (twoByte mods opcode).GivesAt f a (AnyEncoded mods f a) := by
  unfold twoByte
  dsimp only
  split_ifs
  · exact onRegister_encoded mods (fun _ _ => rfl) fun r _ hr hsrc => ⟨r, rfl, hr, hsrc⟩
  · exact Gives.at (branch_encoded _ (fun _ => rfl) fun _ => trivial)
  · exact (modRmOperand_encoded mods _).bind fun o ho =>
      some_encoded (encoded_single rfl ⟨_, ho⟩ trivial)
  iterate 2 exact Gives.at (some_encoded (encoded_single rfl (register_encoded rfl) trivial))
  -- the rows in the order of the table
  split
  · exact memberZero_encoded (operand_encoded mods _ (fun _ => rfl) fun _ => trivial)
  iterate 4
    exact onPair_encoded mods _ (fun _ _ => rfl) fun _ _ hd hs => ⟨hd, fun _ => hs.trans hd.symm⟩
  · exact onRegister_encoded mods (fun _ _ => rfl) fun r _ hr hsrc => ⟨r, rfl, hr, hsrc, by simp⟩
  iterate 4 exact map_some_encoded (widening_encoded mods _ _)
  · exact bitGroup_encoded mods
  iterate 4 exact onPair_encoded mods _ (fun _ _ => rfl) fun _ _ _ _ => trivial
  · exact none_encoded.at

end Opcodes

theorem OpcodeMap.decode_encoded (map : OpcodeMap) (mods : Modifiers) (opcode : UInt8) :
    (map.decode mods opcode).GivesAt f a (Opcodes.AnyEncoded mods f a) := by
  cases map with
  | oneByte => exact Opcodes.oneByte_encoded mods _
  | twoByte => exact Opcodes.twoByte_encoded mods _

namespace Located

/-- Where the operand bytes of an encoding stand: behind the modifiers and the opcode, which has an
escape byte in front of it in the two-byte map. -/
def operandBytes (fetch : Fetch) (l : Located) : UInt64 :=
  (Modifiers.leading fetch l.start).2 + UInt64.ofNat (if l.map = .twoByte then 2 else 1)

theorem opcode?_ok {fetch : Fetch} {a next : UInt64} {s : OpcodeMap × UInt8}
    (h : opcode? fetch a = .ok (s, next)) :
    next = a + UInt64.ofNat (if s.1 = .twoByte then 2 else 1) := by
  unfold opcode? at h
  obtain ⟨⟨byte, b⟩, hb, h⟩ := ok_of_bind h
  obtain ⟨-, n, hn, hn', hnext, -⟩ := fetch_reads.ok hb
  obtain rfl : n = 1 := by simp only [exact] at hn'; omega
  dsimp only at h hnext
  split_ifs at h
  · obtain ⟨⟨second, c⟩, hc, h⟩ := ok_of_bind h
    obtain ⟨-, n, hn, hn', hnext', -⟩ := fetch_reads.ok hc
    obtain rfl : n = 1 := by simp only [exact] at hn'; omega
    cases h
    rw [hnext', hnext, UInt64.add_assoc]
    rfl
  · cases h
    exact hnext

/-- The operands of an encoding come from its operand bytes. -/
theorem encoded_of_at? {fetch : Fetch} {start : UInt64} {l : Located} {i : Instruction}
    (h : at? fetch start = .ok l) (hi : l.instruction = some i) :
    i.Encoded l.modifiers fetch (l.operandBytes fetch) := by
  unfold at? at h
  set mods := (Modifiers.leading fetch start).1
  cases hb : body mods fetch (Modifiers.leading fetch start).2 with
  | error e =>
    simp only [mods, hb] at h
    cases h
  | ok r =>
    simp only [mods, hb] at h
    cases h
    dsimp only at hi ⊢
    obtain ⟨⟨⟨map, opcode⟩, next⟩, hs, hr⟩ := ok_of_bind hb
    obtain ⟨⟨instruction, b⟩, hx, hr⟩ := ok_of_bind hr
    cases hr
    obtain rfl := opcode?_ok hs
    exact OpcodeMap.decode_encoded map mods opcode _ _ hx i hi

end Located

end LongMode

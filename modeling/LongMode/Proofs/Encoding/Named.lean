import LongMode.Proofs.Encoding.WellFormed
import LongMode.Proofs.Except
import LongMode.Proofs.Registers
/-!
What the operands in an encoding name. Every register is one that its bank has, also those that an
address is made of, and every immediate is a number of its width.
-/

namespace LongMode

def Register.Exists (r : Register) : Prop := r.code.val < r.bank.size

theorem Register.exists_of_general {r : Register} (h : r.bank = .general) : r.Exists := by
  unfold Exists
  rw [h]
  exact r.code.isLt

def Pointer.registers (p : Pointer) : List Register := p.base.toList ++ p.index.toList

namespace Operand

def registers : Operand → List Register
  | register r => [r]
  | memory p => p.registers
  | immediate _ => []

/-- The registers exist, and an immediate does not exceed its width. -/
def Named : Operand → Prop
  | immediate i => i.value.toNat < i.width.modulus
  | o => ∀ r ∈ o.registers, r.Exists

theorem named_register {r : Register} (h : r.bank = .general) : (register r).Named := by
  intro s hs
  obtain rfl := List.mem_singleton.1 hs
  exact Register.exists_of_general h

theorem Named.exists {o : Operand} (h : o.Named) : ∀ r ∈ o.registers, r.Exists := by
  cases o with
  | register r => exact h
  | memory p => exact h
  | immediate i => nofun

end Operand

namespace Instruction

/-- The operands in the encoding, and the pointer whose address is loaded. -/
def named : Instruction → List Operand
  | loadAddress dst src => [dst, .memory src]
  | i => i.operands

def Named (i : Instruction) : Prop := ∀ o ∈ i.named, o.Named

end Instruction

namespace Decoder

variable {α β : Type} {Q : α → Prop} {R : β → Prop}

/-- What the decoder gives has the property. -/
def Gives (d : Decoder α) (Q : α → Prop) : Prop :=
  ∀ fetch a x next, d fetch a = .ok (x, next) → Q x

theorem Gives.pure {x : α} (hx : Q x) : (Pure.pure x : Decoder α).Gives Q := by
  intro fetch a y next h
  cases h
  exact hx

theorem Gives.bind {d : Decoder α} {f : α → Decoder β} (hd : d.Gives Q)
    (hf : ∀ x, Q x → (f x).Gives R) : (d >>= f).Gives R := by
  intro fetch a y next h
  obtain ⟨s, hs, hy⟩ := ok_of_bind h
  exact hf s.1 (hd _ _ _ _ hs) _ _ _ _ hy

/-- `Gives.bind` where nothing has to be known of the first part. -/
theorem Gives.skip {d : Decoder α} {f : α → Decoder β} (hf : ∀ x, (f x).Gives R) :
    (d >>= f).Gives R :=
  Gives.bind (Q := fun _ => True) (fun _ _ _ _ _ => trivial) fun x _ => hf x

theorem Gives.map {d : Decoder α} {f : α → β} (hd : d.Gives Q) (hf : ∀ x, Q x → R (f x)) :
    (f <$> d).Gives R := hd.bind fun x hx => Gives.pure (hf x hx)

theorem Gives.ofExcept {r : Except Misuse α} (h : ∀ x, r = .ok x → Q x) :
    (Decoder.ofExcept r).Gives Q := by
  intro fetch a y next hy
  cases r with
  | ok y => cases hy; exact h _ rfl
  | error u => cases hy

end Decoder

open Decoder

theorem Immediate.decode_gives (w : Width) (form : Form) :
    (decode w form).Gives fun i => (Operand.immediate i).Named := by
  refine .skip fun raw => ?_
  dsimp only
  split_ifs
  · exact .skip fun next => .pure (UInt64.toNat_lt _)
  · exact .pure (Width.mask_lt w _)

theorem Sib.decode_gives (mods : Modifiers) (mode : Nat) :
    (decode mods mode).Gives fun s => ∀ r ∈ s.base.toList ++ s.index.toList, r.bank = .general := by
  refine .skip fun byte => ?_
  have hindex (code : Fin 16) : ∀ r ∈ (if code.val = 4 then none else
      some (Register.general code mods.addressWidth)).toList, r.bank = .general := by
    split_ifs <;> simp [Register.general]
  dsimp only
  by_cases h5 : byte.toNat % 8 = 5 ∧ mode = 0
  · rw [if_pos h5]
    exact .skip fun raw => .pure (hindex (extendField mods.bits.index (byte.toNat / 8)))
  · rw [if_neg h5]
    refine .pure fun r hr => ?_
    rcases List.mem_cons.1 hr with rfl | hr
    · rfl
    · exact hindex (extendField mods.bits.index (byte.toNat / 8)) r hr

namespace ModRm

/-- The registers of a pointer while it is decoded. -/
theorem decodeBase_gives (mods : Modifiers) (mode field : Nat) {p : Pointer}
    (hp : ∀ r ∈ p.registers, r.bank = .general) :
    (decodeBase mods mode field p).Gives fun q => ∀ r ∈ q.registers, r.bank = .general := by
  unfold decodeBase
  split_ifs
  · exact (Sib.decode_gives mods mode).bind fun sib hsib => .pure hsib
  · exact .skip fun raw => .pure hp
  · refine .pure fun r hr => ?_
    rcases List.mem_cons.1 hr with rfl | hr
    · rfl
    · exact hp r (List.mem_append_right _ hr)

theorem decodeDisplacement_gives (mode : Nat) {p : Pointer}
    (hp : ∀ r ∈ p.registers, r.bank = .general) :
    (decodeDisplacement mode p).Gives fun q => ∀ r ∈ q.registers, r.bank = .general := by
  unfold decodeDisplacement
  split_ifs
  · exact .skip fun raw => .pure hp
  · exact .skip fun raw => .pure hp
  · exact .pure hp

theorem decodeOperand_gives (mods : Modifiers) (mode field : Nat) (w : Width) :
    (decodeOperand mods mode field w).Gives Operand.Named := by
  unfold decodeOperand
  split_ifs
  · exact .pure (Operand.named_register rfl)
  · have hblank : ∀ r ∈ (Pointer.registers
        { width := w, addressWidth := mods.addressWidth, segment := mods.segment }),
        r.bank = .general := by
      intro r hr
      cases hr
    refine (decodeBase_gives mods mode field hblank).bind fun q hq => ?_
    refine (decodeDisplacement_gives mode hq).bind fun p hp => .pure ?_
    exact fun r hr => Register.exists_of_general (hp r hr)

theorem decode_gives (mods : Modifiers) (w v : Width) (form : Form) :
    (decode mods w v form).Gives fun m => ∀ o ∈ (Part.modRm m).operands, o.Named := by
  refine .skip fun byte => (decodeOperand_gives mods _ _ w).bind fun destination hd => .pure ?_
  intro o ho
  rcases List.mem_cons.1 ho with rfl | ho
  · exact hd
  · dsimp only at ho
    split_ifs at ho
    · cases ho
    · obtain rfl := List.mem_singleton.1 ho
      exact Operand.named_register rfl

end ModRm

/-- A destination and a source are among the operands. -/
theorem Parts.mem_of_pair {form : Form} {parts : List Part} {dst src : Operand}
    (h : pair form parts = .ok (dst, src)) : dst ∈ operands parts ∧ src ∈ operands parts := by
  have hleading : ∀ o ∈ leading parts, o ∈ operands parts := by
    intro o ho
    obtain ⟨part, hpart, hhead⟩ := List.mem_filterMap.1 ho
    exact List.mem_flatMap.2 ⟨part, hpart, List.mem_of_head? hhead⟩
  have hall : ∀ o ∈ (if form.extended then leading parts else operands parts),
      o ∈ operands parts := by
    split_ifs
    · exact hleading
    · exact fun o ho => ho
  unfold pair at h
  dsimp only at h
  split at h
  case h_1 d s heq =>
    cases h
    have hmem : ∀ o ∈ [dst, src], o ∈ operands parts := by
      rw [← heq]
      intro o ho
      by_cases hs : form.swapped = true
      · rw [if_pos hs] at ho
        exact hall o (List.mem_reverse.1 ho)
      · rw [if_neg hs] at ho
        exact hall o ho
    exact ⟨hmem dst (by simp), hmem src (by simp)⟩
  case h_2 => cases h

namespace Opcodes

open Instruction

variable {mods : Modifiers}

/-- The operands of a pair. -/
theorem pair_gives {form : Form} {parts : List Part} (h : ∀ o ∈ Parts.operands parts, o.Named) :
    (Decoder.ofExcept (Parts.pair form parts)).Gives fun p => p.1.Named ∧ p.2.Named :=
  .ofExcept fun p hp => by
    obtain ⟨hdst, hsrc⟩ := Parts.mem_of_pair hp
    exact ⟨h _ hdst, h _ hsrc⟩

theorem modRmPair_gives (mods : Modifiers) (form : Form) :
    (modRmPair mods form).Gives fun p => p.1.Named ∧ p.2.Named :=
  (ModRm.decode_gives mods _ _ form).bind fun m hm => pair_gives (by simpa [Parts.operands] using hm)

theorem modRmOperand_gives (mods : Modifiers) (w : Width) :
    (modRmOperand mods w).Gives Operand.Named :=
  (ModRm.decode_gives mods w w _).bind fun _ hm => .pure (hm _ List.mem_cons_self)

theorem modRmImmediate_gives (mods : Modifiers) (form : Form) :
    (modRmImmediate mods form).Gives fun p => p.1.Named ∧ p.2.Named :=
  (ModRm.decode_gives mods _ _ _).bind fun _ hm => (Immediate.decode_gives _ _).bind fun i hi =>
    pair_gives (by
      intro o ho
      simp only [Parts.operands, List.flatMap_cons, List.flatMap_nil, List.append_nil,
        List.mem_append] at ho
      rcases ho with ho | ho
      · exact hm o ho
      · obtain rfl := List.mem_singleton.1 ho
        exact hi)

theorem accumulatorImmediate_gives (mods : Modifiers) (form : Form) :
    (accumulatorImmediate mods form).Gives fun p => p.1.Named ∧ p.2.Named :=
  (Immediate.decode_gives _ _).bind fun i hi => pair_gives (by
    intro o ho
    rcases List.mem_cons.1 ho with rfl | ho
    · exact Operand.named_register rfl
    · obtain rfl := List.mem_singleton.1 ho
      exact hi)

theorem branchTarget_gives (short : Bool) : (branchTarget short).Gives Operand.Named :=
  (Immediate.decode_gives _ _).bind fun _ hi => .pure hi

/-! Instructions by the number of their operands. -/

theorem named_none {i : Instruction} (h : i.named = []) : i.Named := by
  intro o ho
  rw [h] at ho
  cases ho

theorem named_single {i : Instruction} {target : Operand} (h : i.named = [target])
    (ht : target.Named) : i.Named := by
  intro o ho
  rw [h] at ho
  obtain rfl := List.mem_singleton.1 ho
  exact ht

theorem named_pair {i : Instruction} {dst src : Operand} (h : i.named = [dst, src])
    (hp : dst.Named ∧ src.Named) : i.Named := by
  intro o ho
  rw [h] at ho
  rcases List.mem_cons.1 ho with rfl | ho
  · exact hp.1
  · obtain rfl := List.mem_singleton.1 ho
    exact hp.2

/-- An instruction made of a pair. -/
theorem make_gives {d : Decoder (Operand × Operand)} {make : Operand → Operand → Instruction}
    (hd : d.Gives fun p => p.1.Named ∧ p.2.Named)
    (h : ∀ dst src, (make dst src).named = [dst, src]) :
    (d >>= fun p => pure (make p.1 p.2)).Gives Instruction.Named :=
  hd.bind fun p hp => .pure (named_pair (h p.1 p.2) hp)

theorem widening_gives (mods : Modifiers) (w : Width) (signed : Bool) :
    (widening mods w signed).Gives Instruction.Named :=
  (ModRm.decode_gives mods _ _ _).bind fun m hm =>
    make_gives (pair_gives (by simpa [Parts.operands] using hm)) fun _ _ => rfl

theorem classic_gives (mods : Modifiers) (opcode : Nat) :
    (classic mods opcode).Gives Instruction.Named := by
  unfold classic
  dsimp only
  split
  iterate 4 exact make_gives (modRmPair_gives mods _) fun _ _ => rfl
  · exact make_gives (accumulatorImmediate_gives mods _) fun _ _ => rfl

theorem immediateGroup_gives (mods : Modifiers) (opcode : Nat) :
    (immediateGroup mods opcode).Gives Instruction.Named :=
  .skip fun _ => make_gives (modRmImmediate_gives mods _) fun _ _ => rfl

theorem productImmediate_gives (mods : Modifiers) (opcode : Nat) :
    (productImmediate mods opcode).Gives Instruction.Named := by
  refine (ModRm.decode_gives mods _ _ _).bind fun m hm => ?_
  refine (Immediate.decode_gives _ _).bind fun i hi => ?_
  refine (pair_gives (by simpa [Parts.operands] using hm)).bind fun p hp => .pure ?_
  intro o ho
  rcases List.mem_cons.1 ho with rfl | ho
  · exact hp.1
  · rcases List.mem_cons.1 ho with rfl | ho
    · exact hp.2
    · obtain rfl := List.mem_singleton.1 ho
      exact hi

theorem moveImmediate_gives (mods : Modifiers) (opcode : Nat) :
    (moveImmediate mods opcode).Gives Instruction.Named :=
  make_gives (modRmImmediate_gives mods _) fun _ _ => rfl

theorem popOperand_gives (mods : Modifiers) : (popOperand mods).Gives Instruction.Named :=
  (modRmOperand_gives mods _).bind fun _ ho => .pure (named_single rfl ho)

theorem shiftGroup_gives (mods : Modifiers) (opcode : Nat) :
    (shiftGroup mods opcode).Gives Instruction.Named := by
  refine .skip fun _ => (modRmOperand_gives mods _).bind fun target ht => ?_
  split_ifs
  · exact (Immediate.decode_gives _ _).bind fun _ hi => .pure (named_pair rfl ⟨ht, hi⟩)
  · exact .pure (named_pair rfl ⟨ht, show 1 < Width.byte.modulus by decide⟩)
  · exact .pure (named_pair rfl ⟨ht, Operand.named_register rfl⟩)

theorem unaryGroup_gives (mods : Modifiers) (opcode : Nat) :
    (unaryGroup mods opcode).Gives Instruction.Named := by
  refine .skip fun index => ?_
  split_ifs
  · exact make_gives (modRmImmediate_gives mods _) fun _ _ => rfl
  · refine (modRmOperand_gives mods _).bind fun target ht => ?_
    split <;> exact .pure (named_single rfl ht)

def AnyNamed (o : Option Instruction) : Prop := ∀ i ∈ o, i.Named

theorem some_gives {i : Instruction} (h : i.Named) :
    (pure (some i) : Decoder (Option Instruction)).Gives AnyNamed :=
  .pure fun _ hi => by cases hi; exact h

theorem none_gives : (pure none : Decoder (Option Instruction)).Gives AnyNamed :=
  .pure fun _ hi => by cases hi

theorem map_some_gives {d : Decoder Instruction} (h : d.Gives Instruction.Named) :
    (some <$> d).Gives AnyNamed := h.map fun _ hx _ hi => by cases hi; exact hx

theorem addressOf_gives (mods : Modifiers) : (addressOf mods).Gives AnyNamed := by
  refine (ModRm.decode_gives mods _ _ _).bind fun m hm => ?_
  split
  case h_1 p dst hp hdst =>
    refine some_gives (named_pair rfl ⟨hm dst ?_, hm (.memory p) ?_⟩)
    · simp [Part.operands, hdst]
    · simp [Part.operands, hp]
  case h_2 => exact none_gives

theorem memberZero_gives {d : Decoder Instruction} (h : d.Gives Instruction.Named) :
    (memberZero d).Gives AnyNamed := by
  refine .skip fun index => ?_
  split_ifs
  · exact map_some_gives h
  · exact none_gives

theorem operand_gives (mods : Modifiers) (w : Width) {make : Operand → Instruction}
    (h : ∀ o, (make o).named = [o]) :
    (modRmOperand mods w >>= fun o => (pure (some (make o)) : Decoder _)).Gives AnyNamed :=
  (modRmOperand_gives mods w).bind fun o ho => some_gives (named_single (h o) ho)

theorem incrementGroup_gives (mods : Modifiers) (opcode : Nat) :
    (incrementGroup mods opcode).Gives AnyNamed := by
  refine .skip fun index => ?_
  split
  iterate 5 exact operand_gives mods _ fun _ => rfl
  · exact none_gives

theorem bitGroup_gives (mods : Modifiers) : (bitGroup mods).Gives AnyNamed := by
  refine .skip fun index => ?_
  have hmember (op : BitOp) : (do
      let base ← modRmOperand mods (mods.operandWidth false)
      let i ← Immediate.decode .byte {}
      return some (Instruction.bitTest op base (.immediate i)) : Decoder _).Gives AnyNamed :=
    (modRmOperand_gives mods _).bind fun _ ho => (Immediate.decode_gives _ _).bind fun _ hi =>
      some_gives (named_pair rfl ⟨ho, hi⟩)
  split
  iterate 4 exact hmember _
  · exact none_gives

theorem onPair_gives (mods : Modifiers) (form : Form) {make : Operand → Operand → Instruction}
    (h : ∀ dst src, (make dst src).named = [dst, src]) : (onPair mods form make).Gives AnyNamed :=
  (modRmPair_gives mods form).bind fun p hp => some_gives (named_pair (h p.1 p.2) hp)

theorem branch_gives (short : Bool) {make : Operand → Instruction} (h : ∀ o, (make o).named = [o]) :
    (branchTarget short >>= fun o => (pure (some (make o)) : Decoder _)).Gives AnyNamed :=
  (branchTarget_gives short).bind fun o ho => some_gives (named_single (h o) ho)

theorem pushImmediate_gives (w : Width) (form : Form) :
    (Immediate.decode w form >>= fun i =>
      (pure (some (.push (.immediate i))) : Decoder _)).Gives AnyNamed :=
  (Immediate.decode_gives w form).bind fun _ hi => some_gives (named_single rfl hi)

theorem oneByteSingle_gives (mods : Modifiers) (opcode : Nat) :
    (oneByteSingle mods opcode).Gives AnyNamed := by
  unfold oneByteSingle
  dsimp only
  -- the rows in the order of the table
  split
  · exact map_some_gives (widening_gives mods _ _)
  · exact pushImmediate_gives _ _
  iterate 2 exact map_some_gives (productImmediate_gives mods _)
  · exact pushImmediate_gives _ _
  iterate 3 exact map_some_gives (immediateGroup_gives mods _)
  iterate 8 exact onPair_gives mods _ fun _ _ => rfl
  · exact addressOf_gives mods
  · exact memberZero_gives (popOperand_gives mods)
  iterate 10 exact some_gives (named_none rfl)
  iterate 2
    exact (accumulatorImmediate_gives mods _).bind fun _ hp => some_gives (named_pair rfl hp)
  iterate 6 exact some_gives (named_none rfl)
  iterate 6 exact map_some_gives (shiftGroup_gives mods _)
  · exact .skip fun _ => some_gives (named_none rfl)
  · exact some_gives (named_none rfl)
  iterate 2 exact memberZero_gives (moveImmediate_gives mods _)
  · exact some_gives (named_none rfl)
  iterate 4 exact branch_gives _ fun _ => rfl
  · exact some_gives (named_none rfl)
  iterate 2 exact map_some_gives (unaryGroup_gives mods _)
  iterate 6 exact some_gives (named_none rfl)
  iterate 2 exact incrementGroup_gives mods _
  · exact none_gives

theorem oneByte_gives (mods : Modifiers) (opcode : Nat) :
    (oneByte mods opcode).Gives AnyNamed := by
  have hregister (w : Width) : (Operand.register (opcodeRegister mods opcode w)).Named :=
    Operand.named_register rfl
  unfold oneByte
  dsimp only
  split_ifs
  · exact map_some_gives (classic_gives mods _)
  iterate 2 exact some_gives (named_single rfl (hregister _))
  · exact branch_gives _ fun _ => rfl
  · exact some_gives (named_none rfl)
  · exact some_gives (named_pair rfl ⟨hregister _, Operand.named_register rfl⟩)
  iterate 2
    exact (Immediate.decode_gives _ _).bind fun _ hi => some_gives (named_pair rfl ⟨hregister _, hi⟩)
  · exact oneByteSingle_gives mods opcode

theorem twoByte_gives (mods : Modifiers) (opcode : Nat) :
    (twoByte mods opcode).Gives AnyNamed := by
  unfold twoByte
  dsimp only
  split_ifs
  · exact onPair_gives mods _ fun _ _ => rfl
  · exact branch_gives _ fun _ => rfl
  · exact operand_gives mods _ fun _ => rfl
  iterate 2 exact some_gives (named_single rfl (Operand.named_register rfl))
  -- the rows in the order of the table
  split
  · exact memberZero_gives ((modRmOperand_gives mods _).bind fun _ ho => .pure (named_single rfl ho))
  iterate 5 exact onPair_gives mods _ fun _ _ => rfl
  iterate 4 exact map_some_gives (widening_gives mods _ _)
  · exact bitGroup_gives mods
  iterate 4 exact onPair_gives mods _ fun _ _ => rfl
  · exact none_gives

end Opcodes

theorem OpcodeMap.decode_gives (map : OpcodeMap) (mods : Modifiers) (opcode : UInt8) :
    (map.decode mods opcode).Gives Opcodes.AnyNamed := by
  cases map with
  | oneByte => exact Opcodes.oneByte_gives mods _
  | twoByte => exact Opcodes.twoByte_gives mods _

/-- What every decoder of the maps gives holds of the instruction of every encoding. -/
theorem Located.gives_of_at? {fetch : Fetch} {start : UInt64} {l : Located}
    {Q : Option Instruction → Prop} (hmaps : ∀ map mods opcode,
      (OpcodeMap.decode map mods opcode).Gives Q) (h : at? fetch start = .ok l) :
    Q l.instruction := by
  have hbody (mods : Modifiers) : (body mods).Gives fun r => Q r.2.2 :=
    .skip fun s => (hmaps s.1 mods s.2).bind fun _ hi => .pure hi
  unfold at? at h
  cases hb : body (Modifiers.leading fetch start).1 fetch (Modifiers.leading fetch start).2 with
  | error e =>
    simp only [hb] at h
    cases h
  | ok s =>
    simp only [hb] at h
    cases h
    exact hbody _ _ _ _ _ hb

/-- What an instruction names exists, wherever the instruction is found. -/
theorem Located.named_of_at? {fetch : Fetch} {start : UInt64} {l : Located} {i : Instruction}
    (h : at? fetch start = .ok l) (hi : l.instruction = some i) : i.Named :=
  gives_of_at? OpcodeMap.decode_gives h i hi

end LongMode

import LongMode.Proofs.Encoding.WellFormed
/-!
The opcode maps, decoder by decoder: each takes at most ten bytes behind the opcode and gives a
well-formed instruction if it gives one.
-/

namespace LongMode

/-- A destination and a source, not both in memory. -/
structure Operand.Paired (dst src : Operand) : Prop where
  place : dst.isPlace
  oneMemory : dst.isMemory = false ∨ src.isMemory = false
  dstWidth : dst.width.bytes ≤ 8
  srcWidth : src.width.bytes ≤ 8

theorem Operand.Paired.length_filter_le {dst src : Operand} (h : dst.Paired src) :
    ([dst, src].filter Operand.isMemory).length ≤ 1 := by
  have hm := h.oneMemory
  cases hd : dst.isMemory <;> cases hs : src.isMemory <;> simp_all

namespace Instruction

variable {i : Instruction} {dst src target : Operand}

theorem WellFormed.of_pair (ho : i.operands = [dst, src]) (h : dst.Paired src)
    (hw : ∀ o ∈ i.written, o = dst ∨ o = src ∧ src.isPlace)
    (hs : i.widths = [dst.width, src.width])
    (hx : ∀ o ∈ i.exchanged, o = src ∧ src.isRegister) : i.WellFormed where
  written o m := by
    rcases hw o m with rfl | ⟨rfl, hp⟩
    · exact h.place
    · exact hp
  exchanged o m := by
    obtain ⟨rfl, hr⟩ := hx o m
    exact hr
  oneMemory := by
    rw [ho]
    exact h.length_filter_le
  widths w m := by
    rw [hs] at m
    simp only [List.mem_cons, List.not_mem_nil, or_false] at m
    rcases m with rfl | rfl
    · exact h.dstWidth
    · exact h.srcWidth

/-- An instruction that writes its destination alone. -/
theorem WellFormed.of_destination (ho : i.operands = [dst, src]) (h : dst.Paired src)
    (hw : ∀ o ∈ i.written, o = dst) (hs : i.widths = [dst.width, src.width])
    (hx : i.exchanged = []) : i.WellFormed := by
  refine .of_pair ho h (fun o m => .inl (hw o m)) hs fun o m => ?_
  rw [hx] at m
  cases m

theorem WellFormed.of_single (ho : i.operands = [target]) (hb : target.width.bytes ≤ 8)
    (hw : ∀ o ∈ i.written, o = target ∧ target.isPlace) (hs : i.widths = [target.width]) :
    i.WellFormed where
  written o m := by
    obtain ⟨rfl, hp⟩ := hw o m
    exact hp
  exchanged o m := by
    rw [exchanged_eq_nil (by simp [ho])] at m
    cases m
  oneMemory := by
    rw [ho]
    exact List.length_filter_le _ _
  widths w m := by
    rw [hs, List.mem_singleton] at m
    rw [m]
    exact hb

theorem WellFormed.of_none (ho : i.operands = []) (hw : i.written = [])
    (hs : ∀ w ∈ i.widths, w.bytes ≤ 8) : i.WellFormed where
  written o m := by
    rw [hw] at m
    cases m
  exchanged o m := by
    rw [exchanged_eq_nil (by simp [ho])] at m
    cases m
  oneMemory := by simp [ho]
  widths := hs

end Instruction

open Instruction Decoder

namespace Parts

theorem pair_modRm {m : ModRm} {src : Operand} (form : Form) (hm : m.source = some src)
    (he : form.extended = false) : pair form [.modRm m] =
      .ok (if form.swapped then (src, m.destination) else (m.destination, src)) := by
  unfold pair operands Part.operands
  cases hs : form.swapped <;> simp [he, hm]

theorem pair_modRm_immediate (m : ModRm) (i : Immediate) (form : Form) (he : form.extended = true)
    (hs : form.swapped = false) :
    pair form [.modRm m, .immediate i] = .ok (m.destination, .immediate i) := by
  simp [pair, leading, Part.operands, he, hs]

theorem pair_register_immediate (r : Register) (i : Immediate) (form : Form)
    (hs : form.swapped = false) :
    pair form [.register r, .immediate i] = .ok (.register r, .immediate i) := by
  cases he : form.extended <;> simp [pair, operands, leading, Part.operands, he, hs]

end Parts

theorem ModRm.Fits.paired {m : ModRm} {w v : Width} (h : Fits w v false m) (hw : w.bytes ≤ 8)
    (hv : v.bytes ≤ 8) : ∃ r, m.source = some (.register r) ∧
      m.destination.Paired (.register r) ∧ (Operand.register r).Paired m.destination := by
  obtain ⟨r, hr, rfl⟩ := h.source rfl
  have hd : m.destination.width.bytes ≤ 8 := by rw [h.width]; exact hw
  exact ⟨r, hr, ⟨h.place, .inr rfl, hd, hv⟩, ⟨rfl, .inl rfl, hv, hd⟩⟩

namespace Opcodes

/-! Operand shapes. -/

theorem modRmPair_reads (mods : Modifiers) (form : Form) (he : form.extended = false) :
    (modRmPair mods form).Reads 1 6 exact fun p =>
      p.1.Paired p.2 ∧ p.2.isPlace ∧ (form.swapped = false → p.2.isRegister) := by
  unfold modRmPair
  have hb := mods.operandWidth_bytes_le form.byteSized
  refine (ModRm.decode_reads mods _ _ form).bind le_rfl fun m hm => ?_
  rw [he] at hm
  obtain ⟨r, hr, hdst, hsrc⟩ := hm.paired hb hb
  refine ofExcept_reads (Parts.pair_modRm form hr he) ?_
  cases form.swapped with
  | true => exact ⟨hsrc, hm.place, nofun⟩
  | false => exact ⟨hdst, rfl, fun _ => rfl⟩

theorem modRmOperand_reads (mods : Modifiers) (w : Width) :
    (modRmOperand mods w).Reads 1 6 exact fun o => o.isPlace ∧ o.width = w := by
  unfold modRmOperand
  exact (ModRm.decode_reads mods _ _ _).bind le_rfl fun m hm =>
    Reads.pure ⟨hm.place, hm.width⟩ (by omega)

theorem modRmImmediate_reads (mods : Modifiers) (form : Form) (hi : form.wideImmediate = false)
    (hs : form.swapped = false) :
    (modRmImmediate mods form).Reads 1 10 exact fun p => p.1.Paired p.2 := by
  unfold modRmImmediate
  have hb := mods.operandWidth_bytes_le form.byteSized
  refine (ModRm.decode_reads mods _ _ _).bind (by omega) fun m hm => ?_
  have hd : m.destination.width.bytes ≤ 8 := by rw [hm.width]; exact hb
  refine (Immediate.decode_reads hb (Immediate.storedWidth_bytes_le_four _ hi)).bind (by omega)
    fun i hw => ?_
  exact ofExcept_reads (Parts.pair_modRm_immediate m i _ rfl hs) ⟨hm.place, .inr rfl, hd, hw⟩

theorem accumulatorImmediate_reads (mods : Modifiers) (form : Form)
    (hi : form.wideImmediate = false) (hs : form.swapped = false) :
    (accumulatorImmediate mods form).Reads 0 4 exact fun p => p.1.Paired p.2 := by
  unfold accumulatorImmediate
  have hb := mods.operandWidth_bytes_le form.byteSized
  refine (Immediate.decode_reads hb (Immediate.storedWidth_bytes_le_four _ hi)).bind (by omega)
    fun i hw => ?_
  exact ofExcept_reads (Parts.pair_register_immediate _ i _ hs) ⟨rfl, .inl rfl, hb, hw⟩

/-- A pair of operands, and the instruction made of it. -/
theorem make_reads {d : Decoder (Operand × Operand)} {lo hi : Nat}
    {make : Operand → Operand → Instruction} (hd : d.Reads lo hi exact fun p => p.1.Paired p.2)
    (hmake : ∀ dst src : Operand, dst.Paired src → (make dst src).WellFormed) :
    (d >>= fun p => (pure (make p.1 p.2) : Decoder Instruction)).Reads lo hi exact WellFormed :=
  hd.bind le_rfl fun p hp => Reads.pure (hmake p.1 p.2 hp) (by omega)

theorem widening_reads (mods : Modifiers) (w : Width) (signed : Bool) (hw : w.bytes ≤ 8) :
    (widening mods w signed).Reads 1 6 exact WellFormed := by
  unfold widening
  refine (ModRm.decode_reads mods _ _ _).bind le_rfl fun m hm => ?_
  obtain ⟨r, hr, -, hsrc⟩ := hm.paired hw (mods.operandWidth_bytes_le false)
  have hp : (Decoder.ofExcept (Parts.pair { swapped := true } [.modRm m])).Reads 0 0 exact
      fun p => p.1.Paired p.2 := ofExcept_reads (Parts.pair_modRm _ hr rfl) hsrc
  exact make_reads hp fun dst src h => .of_destination rfl h (by simp [written]) rfl rfl

theorem branchTarget_reads (short : Bool) :
    (branchTarget short).Reads 0 4 exact fun o => o.width.bytes ≤ 8 := by
  unfold branchTarget
  exact (Immediate.decode_reads (by decide) (Immediate.storedWidth_bytes_le_four _ rfl)).bind le_rfl
    fun i hi => Reads.pure hi (by omega)

theorem immediateByte_reads :
    (Immediate.decode .byte {}).Reads 0 1 exact fun i => i.width.bytes ≤ 8 :=
  Immediate.decode_reads (by decide) (by decide)

theorem groupIndex_bind_reads {β : Type} {f : Nat → Decoder β} {hi : Nat} {ahead : β → Nat}
    {R : β → Prop} (hf : ∀ n, (f n).Reads 1 hi ahead R) :
    (groupIndex >>= f).Reads 1 hi ahead R := by
  have h : (groupIndex >>= f) = peek >>= fun byte => f (byte.toNat / 8 % 8) := by
    simp only [groupIndex, bind_assoc, pure_bind]
  rw [h]
  exact peek_bind_reads fun byte => hf (byte.toNat / 8 % 8)

/-! Opcodes of one shape. -/

theorem classic_reads (mods : Modifiers) (opcode : Nat) :
    (classic mods opcode).Reads 0 6 exact WellFormed := by
  have hmake (dst src : Operand) (h : dst.Paired src) :
      (Instruction.binary (.ofIndex (opcode / 8)) dst src).WellFormed :=
    .of_destination rfl h (by simp [written]) rfl rfl
  have hpair (form : Form) (he : form.extended = false) := make_reads
    ((modRmPair_reads mods form he).mono (Nat.zero_le _) le_rfl fun _ h => h.1) hmake
  unfold classic
  dsimp only
  split
  iterate 4 exact hpair _ rfl
  · exact make_reads ((accumulatorImmediate_reads mods _ rfl rfl).mono le_rfl (by omega)
      fun _ h => h) hmake

theorem immediateGroup_reads (mods : Modifiers) (opcode : Nat) :
    (immediateGroup mods opcode).Reads 1 10 exact WellFormed := by
  unfold immediateGroup
  refine groupIndex_bind_reads fun n => ?_
  exact make_reads (modRmImmediate_reads mods _ rfl rfl) fun dst src h =>
    .of_destination rfl h (by simp [written]) rfl rfl

theorem productImmediate_reads (mods : Modifiers) (opcode : Nat) :
    (productImmediate mods opcode).Reads 1 10 exact WellFormed := by
  unfold productImmediate
  have hb := mods.operandWidth_bytes_le false
  refine (ModRm.decode_reads mods _ _ _).bind (by omega) fun m hm => ?_
  refine (Immediate.decode_reads hb (Immediate.storedWidth_bytes_le_four _ rfl)).bind (by omega)
    fun i hi => ?_
  obtain ⟨r, hr, -, hsrc⟩ := hm.paired hb hb
  have hp : (Decoder.ofExcept (Parts.pair { swapped := true } [.modRm m])).Reads 0 0 exact
      fun p => p.1.Paired p.2 := ofExcept_reads (Parts.pair_modRm _ hr rfl) hsrc
  refine hp.bind (by omega) fun p hp => ?_
  refine Reads.pure ⟨?_, by simp [exchanged], ?_, ?_⟩ (by omega)
  · simpa [written] using hp.place
  · simpa [operands, List.filter_cons] using hp.length_filter_le
  · simpa [widths, operands, Operand.width] using ⟨hp.dstWidth, hp.srcWidth, hi⟩

theorem addressOf_reads (mods : Modifiers) : (addressOf mods).Reads 1 6 peeked Encodes := by
  unfold addressOf
  have hb := mods.operandWidth_bytes_le false
  refine (ModRm.decode_reads mods _ _ _).bind le_rfl fun m hm => ?_
  obtain ⟨r, hr, hdst, -⟩ := hm.paired hb hb
  rw [hr]
  cases m.destination with
  | memory p =>
    exact Reads.pure (fun i hi => by
      cases hi
      exact .of_single rfl hdst.srcWidth (by simp [written, Operand.isPlace]) rfl) (by omega)
  | register _ => exact Reads.pure (fun i hi => by cases hi) (by omega)
  | immediate _ => exact Reads.pure (fun i hi => by cases hi) (by omega)

theorem memberZero_reads {member : Decoder Instruction} {hi : Nat}
    (h : member.Reads 1 hi exact WellFormed) : (memberZero member).Reads 1 hi peeked Encodes := by
  unfold memberZero
  refine groupIndex_bind_reads fun n => ?_
  split_ifs
  · exact h.map_exact fun x hx i hi => by cases hi; exact hx
  · exact Reads.pure (fun i hi => by cases hi) le_rfl

theorem popOperand_reads (mods : Modifiers) : (popOperand mods).Reads 1 6 exact WellFormed := by
  unfold popOperand
  refine (modRmOperand_reads mods _).bind le_rfl fun o ho => Reads.pure ?_ (by omega)
  have hb : o.width.bytes ≤ 8 := by rw [ho.2]; exact mods.stackWidth_bytes_le
  exact .of_single rfl hb (by simp [written, ho.1]) rfl

theorem moveImmediate_reads (mods : Modifiers) (opcode : Nat) :
    (moveImmediate mods opcode).Reads 1 10 exact WellFormed := by
  unfold moveImmediate
  exact make_reads (modRmImmediate_reads mods _ rfl rfl) fun dst src h =>
    .of_destination rfl h (by simp [written]) rfl rfl

theorem shiftGroup_reads (mods : Modifiers) (opcode : Nat) :
    (shiftGroup mods opcode).Reads 1 10 exact WellFormed := by
  unfold shiftGroup
  refine groupIndex_bind_reads fun n => ?_
  refine (modRmOperand_reads mods _).bind (by omega) fun o ho => ?_
  have hb : o.width.bytes ≤ 8 := by rw [ho.2]; exact mods.operandWidth_bytes_le _
  have hmake : ∀ count : Operand, count.isMemory = false → count.width.bytes ≤ 8 →
      (Instruction.shift (.ofIndex n) o count).WellFormed := fun count hm hc =>
    .of_destination rfl ⟨ho.1, .inr hm, hb, hc⟩ (by simp [written]) rfl rfl
  split_ifs
  · exact immediateByte_reads.bind (by omega) fun i hi =>
      Reads.pure (hmake _ rfl hi) (by omega)
  · exact Reads.pure (hmake _ rfl (by decide)) (by omega)
  · exact Reads.pure (hmake _ rfl (by decide)) (by omega)

theorem unaryGroup_reads (mods : Modifiers) (opcode : Nat) :
    (unaryGroup mods opcode).Reads 1 10 exact WellFormed := by
  unfold unaryGroup
  refine groupIndex_bind_reads fun n => ?_
  split_ifs
  · exact make_reads (modRmImmediate_reads mods _ rfl rfl) fun dst src h =>
      .of_destination rfl h (by simp [written]) rfl rfl
  · refine (modRmOperand_reads mods _).bind (by omega) fun o ho => ?_
    have hb : o.width.bytes ≤ 8 := by rw [ho.2]; exact mods.operandWidth_bytes_le _
    split <;> exact Reads.pure (.of_single rfl hb (by simp [written, ho.1]) rfl) (by omega)

/-- An instruction with a ModRM operand alone. -/
theorem modRmOperand_bind_reads (mods : Modifiers) {w : Width} {hi : Nat} (hw : w.bytes ≤ 8)
    (hle : 6 ≤ hi) {make : Operand → Instruction}
    (hmake : ∀ o : Operand, o.isPlace → o.width.bytes ≤ 8 → (make o).WellFormed) :
    (modRmOperand mods w >>= fun o => (pure (some (make o)) : Decoder _)).Reads 1 hi peeked
      Encodes := by
  refine (modRmOperand_reads mods w).bind hle fun o ho => Reads.pure ?_ (by simp)
  intro i hi
  cases hi
  exact hmake o ho.1 (by rw [ho.2]; exact hw)

theorem incrementGroup_reads (mods : Modifiers) (opcode : Nat) :
    (incrementGroup mods opcode).Reads 1 10 peeked Encodes := by
  unfold incrementGroup
  refine groupIndex_bind_reads fun n => ?_
  have hw := mods.operandWidth_bytes_le
  split
  · exact modRmOperand_bind_reads mods (hw _) (by omega) fun o hp hb =>
      .of_single rfl hb (by simp [written, hp]) rfl
  · exact modRmOperand_bind_reads mods (hw _) (by omega) fun o hp hb =>
      .of_single rfl hb (by simp [written, hp]) rfl
  · exact modRmOperand_bind_reads mods (by decide) (by omega) fun o hp hb =>
      .of_single rfl hb (by simp [written]) rfl
  · exact modRmOperand_bind_reads mods (by decide) (by omega) fun o hp hb =>
      .of_single rfl hb (by simp [written]) rfl
  · exact modRmOperand_bind_reads mods mods.stackWidth_bytes_le (by omega) fun o hp hb =>
      .of_single rfl hb (by simp [written]) rfl
  · exact Reads.pure (fun i hi => by cases hi) le_rfl

theorem bitGroup_reads (mods : Modifiers) : (bitGroup mods).Reads 1 7 peeked Encodes := by
  unfold bitGroup
  refine groupIndex_bind_reads fun n => ?_
  have hmember : ∀ op : BitOp, (do
      let base ← modRmOperand mods (mods.operandWidth false)
      let i ← Immediate.decode .byte {}
      return some (Instruction.bitTest op base (.immediate i)) : Decoder _).Reads 1 7 peeked
        Encodes := by
    intro op
    refine (modRmOperand_reads mods _).bind (by omega) fun o ho => ?_
    have hb : o.width.bytes ≤ 8 := by rw [ho.2]; exact mods.operandWidth_bytes_le _
    refine immediateByte_reads.bind (by omega) fun i hi =>
      Reads.pure ?_ (by simp)
    intro i' hi'
    cases hi'
    have hp : o.Paired (.immediate i) := ⟨ho.1, .inr rfl, hb, hi⟩
    exact .of_destination rfl hp (by simp [written]) rfl rfl
  split
  · exact hmember _
  · exact hmember _
  · exact hmember _
  · exact hmember _
  · exact Reads.pure (fun i hi => by cases hi) le_rfl

theorem onPair_reads (mods : Modifiers) (form : Form) (he : form.extended = false)
    {make : Operand → Operand → Instruction}
    (hmake : ∀ dst src : Operand, dst.Paired src → src.isPlace →
      (form.swapped = false → src.isRegister) → (make dst src).WellFormed) :
    (onPair mods form make).Reads 1 6 peeked Encodes := by
  unfold onPair
  refine (modRmPair_reads mods form he).bind le_rfl fun p hp => Reads.pure ?_ (by simp)
  intro i hi
  cases hi
  exact hmake _ _ hp.1 hp.2.1 hp.2.2

/-! The maps. -/

theorem some_reads {i : Instruction} {hi : Nat} (h : i.WellFormed) :
    (pure (some i) : Decoder (Option Instruction)).Reads 0 hi peeked Encodes :=
  Reads.pure (fun _ hj => by cases hj; exact h) (Nat.zero_le _)

theorem none_reads {hi : Nat} :
    (pure none : Decoder (Option Instruction)).Reads 0 hi peeked Encodes :=
  Reads.pure (fun _ hj => by cases hj) (Nat.zero_le _)

theorem map_some_reads {d : Decoder Instruction} {lo hi hi' : Nat}
    (h : d.Reads lo hi exact WellFormed) (hle : hi ≤ hi') :
    (some <$> d).Reads 0 hi' peeked Encodes :=
  (h.mono (Nat.zero_le _) hle fun _ hx => hx).map_exact fun _ hx _ hj => by cases hj; exact hx

theorem onPair_reads_of_single {mods : Modifiers} {form : Form} (he : form.extended = false)
    {make : Operand → Operand → Instruction} {hi : Nat} (hle : 6 ≤ hi)
    (ho : ∀ dst src, (make dst src).operands = [dst, src])
    (hs : ∀ dst src, (make dst src).widths = [dst.width, src.width])
    (hx : ∀ dst src, ∀ o ∈ (make dst src).exchanged, o = src ∧ form.swapped = false) :
    (onPair mods form make).Reads 0 hi peeked Encodes := by
  have hmake (dst src : Operand) (h : dst.Paired src) (hp : src.isPlace)
      (hr : form.swapped = false → src.isRegister) : (make dst src).WellFormed := by
    refine .of_pair (ho dst src) h ?_ (hs dst src) fun o m => (hx dst src o m).imp_right hr
    intro o m
    have hmem : o ∈ [dst, src] := ho dst src ▸ written_subset _ m
    rcases List.mem_pair.1 hmem with rfl | rfl
    · exact .inl rfl
    · exact .inr ⟨rfl, hp⟩
  exact (onPair_reads mods form he hmake).mono (Nat.zero_le _) hle fun _ h => h

theorem branch_reads {short : Bool} {make : Operand → Instruction} {hi : Nat} (hle : 4 ≤ hi)
    (ho : ∀ o, (make o).operands = [o]) (hw : ∀ o, (make o).written = [])
    (hs : ∀ o, (make o).widths = [o.width]) :
    (branchTarget short >>= fun o => (pure (some (make o)) : Decoder _)).Reads 0 hi peeked
      Encodes :=
  (branchTarget_reads short).bind hle fun o hb =>
    some_reads (.of_single (ho o) hb (by simp [hw o]) (hs o))

theorem pushImmediate_reads (mods : Modifiers) (form : Form) (hf : form.wideImmediate = false) :
    (Immediate.decode mods.stackWidth form >>= fun i =>
      (pure (some (.push (.immediate i))) : Decoder _)).Reads 0 10 peeked Encodes :=
  (Immediate.decode_reads mods.stackWidth_bytes_le
    (Immediate.storedWidth_bytes_le_four _ hf)).bind (by omega) fun i hi =>
      some_reads (.of_single rfl hi (by simp [written]) rfl)

theorem stringOp_wellFormed (mods : Modifiers) (kind : StringKind) (byteSized : Bool) :
    (stringOp mods kind byteSized).WellFormed :=
  .of_none rfl rfl (by
    simp [stringOp, widths, operands, mods.operandWidth_bytes_le, mods.addressWidth_bytes_le])

theorem oneByteSingle_reads (mods : Modifiers) (opcode : Nat) :
    (oneByteSingle mods opcode).Reads 0 10 peeked Encodes := by
  have hw := mods.operandWidth_bytes_le false
  have hstack := mods.stackWidth_bytes_le
  unfold oneByteSingle
  dsimp only
  -- the rows in the order of the table
  split
  · exact map_some_reads (widening_reads mods _ _ (by decide)) (by omega)
  · exact pushImmediate_reads mods _ rfl
  iterate 2 exact map_some_reads (productImmediate_reads mods _) le_rfl
  · exact pushImmediate_reads mods _ rfl
  iterate 3 exact map_some_reads (immediateGroup_reads mods _) le_rfl
  iterate 8
    exact onPair_reads_of_single rfl (by omega) (fun _ _ => rfl) (fun _ _ => rfl)
      (by simp [exchanged])
  · exact (addressOf_reads mods).mono (by omega) (by omega) fun _ h => h
  · exact (memberZero_reads (popOperand_reads mods)).mono (by omega) (by omega) fun _ h => h
  iterate 2 exact some_reads (.of_none rfl rfl (by simp [widths, operands, hw]))
  iterate 2 exact some_reads (.of_none rfl rfl (by simp [widths, operands, hstack]))
  iterate 2 exact some_reads (.of_none rfl rfl (by simp [widths, operands]))
  iterate 4 exact some_reads (stringOp_wellFormed mods _ _)
  iterate 2
    exact (accumulatorImmediate_reads mods _ rfl rfl).bind (by omega) fun p hp =>
      some_reads (.of_destination rfl hp (by simp [written]) rfl rfl)
  iterate 6 exact some_reads (stringOp_wellFormed mods _ _)
  iterate 6 exact map_some_reads (shiftGroup_reads mods _) le_rfl
  · exact (fetchWord_reads 2).bind (by omega) fun v _ =>
      some_reads (.of_none rfl rfl (by simp [widths, operands]))
  · exact some_reads (.of_none rfl rfl (by simp [widths, operands]))
  iterate 2
    exact (memberZero_reads (moveImmediate_reads mods _)).mono (by omega) le_rfl fun _ h => h
  · exact some_reads (.of_none rfl rfl (by simp [widths, operands, hstack]))
  iterate 4 exact branch_reads (by omega) (fun _ => rfl) (fun _ => rfl) fun _ => rfl
  · exact some_reads (.of_none rfl rfl (by simp [widths, operands]))
  iterate 2 exact map_some_reads (unaryGroup_reads mods _) le_rfl
  iterate 6 exact some_reads (.of_none rfl rfl (by simp [widths, operands]))
  iterate 2 exact (incrementGroup_reads mods _).mono (by omega) le_rfl fun _ h => h
  · exact none_reads

theorem registers_paired {r t : Register} (hr : r.width.bytes ≤ 8) (ht : t.width.bytes ≤ 8) :
    (Operand.register r).Paired (.register t) := ⟨rfl, .inl rfl, hr, ht⟩

theorem oneByte_reads (mods : Modifiers) (opcode : Nat) :
    (oneByte mods opcode).Reads 0 10 peeked Encodes := by
  have hw := mods.operandWidth_bytes_le false
  have hstack := mods.stackWidth_bytes_le
  have byte_le : Width.byte.bytes ≤ 8 := by decide
  unfold oneByte
  dsimp only
  split_ifs
  · exact map_some_reads (classic_reads mods _) (by omega)
  · exact some_reads (.of_single rfl hstack (by simp [written]) rfl)
  · exact some_reads (.of_single rfl hstack (by simp [written, Operand.isPlace]) rfl)
  · exact branch_reads (by omega) (fun _ => rfl) (fun _ => rfl) fun _ => rfl
  · exact some_reads (.of_none rfl rfl (by simp [widths, operands]))
  · exact some_reads (.of_pair rfl (registers_paired hw hw)
      (by simp [exchangeAccumulator, written, Operand.isPlace]) rfl
      (by simp [exchangeAccumulator, exchanged, Operand.isRegister]))
  · exact immediateByte_reads.bind (by omega) fun i hi =>
      some_reads (.of_destination rfl ⟨rfl, .inl rfl, byte_le, hi⟩ (by simp [written]) rfl rfl)
  · exact (Immediate.decode_reads hw (Immediate.storedWidth_bytes_le _ _)).bind (by omega)
      fun i hi => some_reads (.of_destination rfl ⟨rfl, .inl rfl, hw, hi⟩ (by simp [written]) rfl
        rfl)
  · exact oneByteSingle_reads mods opcode

theorem twoByte_reads (mods : Modifiers) (opcode : Nat) :
    (twoByte mods opcode).Reads 0 9 peeked Encodes := by
  have hw := mods.operandWidth_bytes_le false
  have hnop : (modRmOperand mods (mods.operandWidth false) >>= fun o =>
      (pure (.nop (some o)) : Decoder Instruction)).Reads 1 6 exact WellFormed :=
    (modRmOperand_reads mods _).bind le_rfl fun o ho => Reads.pure
      (.of_single rfl (by rw [ho.2]; exact hw) (by simp [written]) rfl) (by omega)
  unfold twoByte
  dsimp only
  split_ifs
  · exact onPair_reads_of_single rfl (by omega) (fun _ _ => rfl) (fun _ _ => rfl)
      (by simp [exchanged])
  · exact branch_reads (by omega) (fun _ => rfl) (fun _ => rfl) fun _ => rfl
  · exact (modRmOperand_bind_reads mods (by decide) (by omega) fun o hp hb =>
      .of_single rfl hb (by simp [written, hp]) rfl).mono (by omega) le_rfl fun _ h => h
  iterate 2
    exact some_reads (.of_single rfl (by simp [Operand.width, opcodeRegister, Width.bytes])
      (by simp [written, Operand.isPlace]) rfl)
  -- the rows in the order of the table
  split
  · exact (memberZero_reads hnop).mono (by omega) (by omega) fun _ h => h
  iterate 5
    exact onPair_reads_of_single rfl (by omega) (fun _ _ => rfl) (fun _ _ => rfl)
      (by simp [exchanged])
  iterate 4 exact map_some_reads (widening_reads mods _ _ (by decide)) (by omega)
  · exact (bitGroup_reads mods).mono (by omega) (by omega) fun _ h => h
  iterate 4
    exact onPair_reads_of_single rfl (by omega) (fun _ _ => rfl) (fun _ _ => rfl)
      (by simp [exchanged])
  · exact none_reads

end Opcodes

theorem OpcodeMap.decode_reads (map : OpcodeMap) (mods : Modifiers) (opcode : UInt8) :
    (map.decode mods opcode).Reads 0 (if map = .oneByte then 10 else 9) peeked Encodes := by
  cases map with
  | oneByte => exact Opcodes.oneByte_reads mods _
  | twoByte => exact Opcodes.twoByte_reads mods _

end LongMode

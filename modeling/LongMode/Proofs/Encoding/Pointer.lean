import LongMode.Proofs.Encoding.Operands
/-!
The places in memory that an encoding can name: a base, an index that is never the stack pointer, or
the instruction pointer alone, all of one width.
-/

namespace LongMode

/-- The forms of address that encodings have. -/
structure Pointer.Encodable (p : Pointer) : Prop where
  addressWidth : p.addressWidth = .dword ∨ p.addressWidth = .qword
  base : ∀ r ∈ p.base, ∃ code, r = .general code p.addressWidth
  index : ∀ r ∈ p.index, ∃ code, code ≠ 4 ∧ r = .general code p.addressWidth
  scale : ∃ k < 4, p.scale = Sib.scaleOf k
  ipRelative : p.ipRelative = true → p.base = none ∧ p.index = none

/-- Another displacement stands in the same form of address. -/
theorem Pointer.Encodable.withDisplacement {p : Pointer} (h : p.Encodable) (d : Int64) :
    Pointer.Encodable { p with displacement := d } :=
  ⟨h.addressWidth, h.base, h.index, h.scale, h.ipRelative⟩

open Decoder

/-- What a SIB byte puts into an address of the width `w`. -/
structure Sib.Encodable (w : Width) (s : Sib) : Prop where
  base : ∀ r ∈ s.base, ∃ code, r = .general code w
  index : ∀ r ∈ s.index, ∃ code, code ≠ 4 ∧ r = .general code w
  scale : ∃ k < 4, s.scale = scaleOf k

theorem Sib.decode_encodable (mods : Modifiers) (mode : Nat) :
    (decode mods mode).Gives (Encodable mods.addressWidth) := by
  refine .skip fun byte => ?_
  have hindex (code : Fin 16) : ∀ r ∈ (if code.val = 4 then none else
      some (Register.general code mods.addressWidth)),
      ∃ code', code' ≠ 4 ∧ r = .general code' mods.addressWidth := by
    intro r hr
    split_ifs at hr with hcode
    · cases hr
    · cases hr
      exact ⟨code, fun h => hcode (congrArg Fin.val h), rfl⟩
  have hscale : byte.toNat / 64 < 4 := by have := byte.toNat_lt; omega
  dsimp only
  by_cases h5 : byte.toNat % 8 = 5 ∧ mode = 0
  · rw [if_pos h5]
    exact .skip fun raw => .pure ⟨nofun, hindex _, _, hscale, rfl⟩
  · rw [if_neg h5]
    refine .pure ⟨fun r hr => ?_, hindex _, _, hscale, rfl⟩
    cases hr
    exact ⟨_, rfl⟩

namespace ModRm

theorem decodeBase_encodable (mods : Modifiers) (mode field : Nat) (w : Width) :
    (decodeBase mods mode field
      { width := w, addressWidth := mods.addressWidth, segment := mods.segment }).Gives
        Pointer.Encodable := by
  have hwidth : mods.addressWidth = .dword ∨ mods.addressWidth = .qword := by
    unfold Modifiers.addressWidth
    split_ifs
    · exact .inl rfl
    · exact .inr rfl
  have hone : ∃ k < 4, (1 : UInt8) = Sib.scaleOf k := ⟨0, by decide, rfl⟩
  unfold decodeBase
  split_ifs
  · exact (Sib.decode_encodable mods mode).bind fun sib hsib =>
      .pure ⟨hwidth, hsib.base, hsib.index, hsib.scale, nofun⟩
  · exact .skip fun raw => .pure ⟨hwidth, nofun, nofun, hone, fun _ => ⟨rfl, rfl⟩⟩
  · refine .pure ⟨hwidth, fun r hr => ?_, nofun, hone, nofun⟩
    cases hr
    exact ⟨_, rfl⟩

theorem decodeDisplacement_encodable (mode : Nat) {p : Pointer} (h : p.Encodable) :
    (decodeDisplacement mode p).Gives Pointer.Encodable := by
  unfold decodeDisplacement
  split_ifs
  · exact .skip fun raw => .pure (h.withDisplacement _)
  · exact .skip fun raw => .pure (h.withDisplacement _)
  · exact .pure h

theorem decodeOperand_encodable (mods : Modifiers) (mode field : Nat) (w : Width) :
    (decodeOperand mods mode field w).Gives fun o => ∀ p, o = .memory p → p.Encodable := by
  unfold decodeOperand
  split_ifs
  · refine .pure fun p hp => ?_
    cases hp
  · refine (decodeBase_encodable mods mode field w).bind fun q hq =>
      (decodeDisplacement_encodable mode hq).bind fun p hp => .pure fun p' hp' => ?_
    cases hp'
    exact hp

theorem decode_encodable (mods : Modifiers) (w v : Width) (form : Form) :
    (decode mods w v form).Gives fun d => ∀ p, d.destination = .memory p → p.Encodable :=
  .skip fun _ => (decodeOperand_encodable mods _ _ w).bind fun _ hd => .pure hd

end ModRm

/-- The places in memory that an instruction names are places that an encoding can name. -/
theorem Located.encodable_of_at? {fetch : Fetch} {start : UInt64} {l : Located} {i : Instruction}
    {p : Pointer} (h : at? fetch start = .ok l) (hi : l.instruction = some i)
    (hp : .memory p ∈ i.named) : p.Encodable := by
  obtain ⟨w, v, form, d, next, hd, hdestination⟩ := (encoded_of_at? h hi).operands _ hp
  exact ModRm.decode_encodable l.modifiers w v form _ _ _ _ hd p hdestination

end LongMode

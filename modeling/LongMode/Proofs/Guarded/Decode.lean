import LongMode.Encoding.Opcodes
import LongMode.Proofs.Encoding.WellFormed
import LongMode.Proofs.Guarded.Words
/-!
The decoders that the opcode maps are built from, guarded: the bytes of a word are put together by
shifts, and each register is made from its code. No more than eight bytes go into a word, and each
register field with its fourth bit is the code of a general register.
-/

namespace LongMode.Guarded

abbrev Decoding := ReaderT Fetch (StateT UInt64 Guard)

namespace Decoding

variable {α β : Type}

def sure (c : Except Crash α) : Decoding α := fun _ a => do
  let x ← Guard.sure c
  return (x, a)

def part (d : Decoder α) : Decoding α := fun fetch a => Guard.part (d fetch a)

def Runs (c : Decoding α) (d : Decoder α) : Prop := ∀ fetch a, Guard.Runs (c fetch a) (d fetch a)

theorem sure_bind (x : α) (f : α → Decoding β) : (sure (.ok x) >>= f) = f x := rfl

theorem Runs.pure (x : α) : Runs (Pure.pure x) (Pure.pure x) := fun _ _ => rfl

theorem Runs.sure {c : Except Crash α} {x : α} (h : c = .ok x) :
    Runs (Decoding.sure c) (Pure.pure x) := by
  subst h
  exact fun _ _ => rfl

theorem Runs.bind {c : Decoding α} {d : Decoder α} {f : α → Decoding β} {g : α → Decoder β}
    (hc : Runs c d) (hf : ∀ x, Runs (f x) (g x)) : Runs (c >>= f) (d >>= g) :=
  fun fetch a => (hc fetch a).bind fun s _ => hf s.1 fetch s.2

/-- What follows need not crash on what the decoder gives alone. -/
theorem Runs.bind_reads {c : Decoding α} {d : Decoder α} {f : α → Decoding β} {g : α → Decoder β}
    {lo hi : Nat} {ahead : α → Nat} {Q : α → Prop} (hc : Runs c d) (hd : d.Reads lo hi ahead Q)
    (hf : ∀ x, Q x → Runs (f x) (g x)) : Runs (c >>= f) (d >>= g) :=
  fun fetch a => (hc fetch a).bind fun s hs => hf s.1 (hd.ok hs).1 fetch s.2

theorem Runs.map (f : α → β) {c : Decoding α} {d : Decoder α} (hc : Runs c d) :
    Runs (f <$> c) (f <$> d) := fun fetch a => (hc fetch a).bind fun _ _ => rfl

theorem Runs.ite {p : Prop} [Decidable p] {c c' : Decoding α} {d d' : Decoder α} (hc : Runs c d)
    (hc' : Runs c' d') : Runs (if p then c else c') (if p then d else d') := by
  split_ifs
  · exact hc
  · exact hc'

theorem Runs.fetch : Runs (part Decoder.fetch) Decoder.fetch := fun _ _ =>
  .part fun _ he => by
    obtain ⟨-, f, hf, -⟩ := Decoder.fetch_reads.error he
    exact ⟨f, hf⟩

theorem Runs.peek : Runs (part Decoder.peek) Decoder.peek := fun fetch a =>
  .part fun e he => by
    cases hf : fetch a with
    | ok byte =>
      rw [Decoder.peek_of_ok hf] at he
      cases he
    | error f =>
      rw [Decoder.peek_of_error hf] at he
      cases he
      exact ⟨f, rfl⟩

end Decoding

open Decoding

/-- No byte is fetched if there is no room for all of them. -/
def fetchWord (n : Nat) : Decoding UInt64 :=
  if n ≤ 8 then do
    let bytes ← part (Decoder.fetchBytes n)
    sure (assemble 0 bytes)
  else sure (.error (.index n 8))

/-- The register with a code, which its bank has to have. -/
def register (bank : Bank) (code : Nat) (w : Width) (rex : Bool) : Except Crash Register :=
  match Register.ofCode bank code w rex with
  | .ok r => .ok r
  | .error u => .error (.misuse u)

def fieldCode (high : Bool) (field : Nat) : Nat := field % 8 + (if high then 8 else 0)

def scaleOf (field : Nat) : Except Crash UInt8 :=
  if field < 8 then .ok (1 <<< UInt8.ofNat field) else .error (.shift field 8)

def immediate (w : Width) (form : Form) : Decoding Immediate := do
  let stored := Immediate.storedWidth w form
  let raw ← fetchWord stored.bytes
  let v := stored.signExtend raw
  if form.relative then
    let next ← part get
    return { value := next + v, width := .qword, relative := true }
  else
    return { value := v &&& w.mask, width := w, relative := false }

def sib (mods : Modifiers) (mode : Nat) : Decoding Sib := do
  let byte ← part Decoder.fetch
  let n := byte.toNat
  let scale ← sure (scaleOf (n / 64))
  let code := fieldCode mods.bits.index (n / 8)
  let index ← sure (register .general code mods.addressWidth true)
  let index? := if code = 4 then none else some index
  if n % 8 = 5 ∧ mode = 0 then
    let raw ← fetchWord 4
    return { scale, index := index?, base := none
             displacement := (Width.dword.signExtend raw).toInt64 }
  else
    let base ← sure (register .general (fieldCode mods.bits.base n) mods.addressWidth true)
    return { scale, index := index?, base := some base, displacement := 0 }

def base (mods : Modifiers) (mode field : Nat) (p : Pointer) : Decoding Pointer := do
  if field % 8 = 4 then
    let sib ← sib mods mode
    return { p with base := sib.base, index := sib.index, scale := sib.scale
                    displacement := sib.displacement }
  else if field % 8 = 5 ∧ mode = 0 then
    let raw ← fetchWord 4
    return { p with ipRelative := true, displacement := (Width.dword.signExtend raw).toInt64 }
  else
    let base ← sure (register .general (fieldCode mods.bits.base field) mods.addressWidth true)
    return { p with base := some base }

def displacement (mode : Nat) (p : Pointer) : Decoding Pointer := do
  if mode = 1 then
    let raw ← fetchWord 1
    return { p with displacement := p.displacement + (Width.byte.signExtend raw).toInt64 }
  else if mode = 2 then
    let raw ← fetchWord 4
    return { p with displacement := p.displacement + (Width.dword.signExtend raw).toInt64 }
  else return p

def operand (mods : Modifiers) (mode field : Nat) (w : Width) : Decoding Operand := do
  if mode = 3 then
    let r ← sure (register .general (fieldCode mods.bits.base field) w mods.rex.isSome)
    return .register r
  else
    let blank : Pointer :=
      { width := w, addressWidth := mods.addressWidth, segment := mods.segment }
    let based ← base mods mode field blank
    let p ← displacement mode based
    return .memory p

def modRm (mods : Modifiers) (rmWidth regWidth : Width) (form : Form) : Decoding ModRm := do
  let byte ← part Decoder.fetch
  let n := byte.toNat
  let mode := n / 64
  let destination ← operand mods mode n rmWidth
  let r ← sure (register .general (fieldCode mods.bits.reg (n / 8)) regWidth mods.rex.isSome)
  let source : Option Operand := if form.extended then none else some (.register r)
  return { mode, reg := extendField mods.bits.reg (n / 8), rm := extendField mods.bits.base n
           destination, source }

theorem register_eq (high : Bool) (field : Nat) (w : Width) (rex : Bool) :
    register .general (fieldCode high field) w rex = .ok ⟨.general, extendField high field, w, rex⟩ := by
  have h : fieldCode high field < Bank.general.size := (extendField high field).isLt
  unfold register Register.ofCode
  rw [dif_pos h]
  rfl

theorem scaleOf_eq (byte : UInt8) : scaleOf (byte.toNat / 64) = .ok (Sib.scaleOf (byte.toNat / 64)) :=
  if_pos (by have := byte.toNat_lt; omega)

theorem fetchWord_runs {n : Nat} (h : n ≤ 8) : Runs (fetchWord n) (Decoder.fetchWord n) := by
  intro fetch a
  unfold fetchWord
  rw [if_pos h]
  refine Guard.Runs.bind (.part fun e he => ?_) fun s hs => ?_
  · obtain ⟨-, f, hf, -⟩ := (Decoder.fetchBytes_reads n).error he
    exact ⟨f, hf⟩
  · obtain ⟨hlength, -⟩ := (Decoder.fetchBytes_reads n).ok hs
    have hword : assemble 0 s.1 = .ok (LittleEndian.toWord s.1) := by
      rw [assemble_eq (by omega)]
      simp
    exact Runs.sure hword fetch s.2

theorem immediate_runs (w : Width) (form : Form) :
    Runs (immediate w form) (Immediate.decode w form) := by
  refine (fetchWord_runs (Immediate.storedWidth_bytes_le w form)).bind fun raw => ?_
  dsimp only
  refine .ite ?_ (.pure _)
  exact .bind (fun _ _ => rfl) fun next => .pure _

theorem sib_runs (mods : Modifiers) (mode : Nat) : Runs (sib mods mode) (Sib.decode mods mode) := by
  refine Runs.fetch.bind fun byte => ?_
  dsimp only
  rw [scaleOf_eq, sure_bind, register_eq, sure_bind]
  refine .ite ?_ ?_
  · exact (fetchWord_runs (by decide)).bind fun raw => .pure _
  · rw [register_eq]
    exact .pure _

theorem base_runs (mods : Modifiers) (mode field : Nat) (p : Pointer) :
    Runs (base mods mode field p) (ModRm.decodeBase mods mode field p) := by
  refine .ite ?_ (.ite ?_ ?_)
  · exact (sib_runs mods mode).bind fun sib => .pure _
  · exact (fetchWord_runs (by decide)).bind fun raw => .pure _
  · rw [register_eq]
    exact .pure _

theorem displacement_runs (mode : Nat) (p : Pointer) :
    Runs (displacement mode p) (ModRm.decodeDisplacement mode p) := by
  refine .ite ?_ (.ite ?_ (.pure _))
  · exact (fetchWord_runs (by decide)).bind fun raw => .pure _
  · exact (fetchWord_runs (by decide)).bind fun raw => .pure _

theorem operand_runs (mods : Modifiers) (mode field : Nat) (w : Width) :
    Runs (operand mods mode field w) (ModRm.decodeOperand mods mode field w) := by
  refine .ite ?_ ?_
  · rw [register_eq]
    exact .pure _
  · exact (base_runs mods mode field _).bind fun based =>
      (displacement_runs mode based).bind fun p => .pure _

theorem modRm_runs (mods : Modifiers) (w v : Width) (form : Form) :
    Runs (modRm mods w v form) (ModRm.decode mods w v form) := by
  refine Runs.fetch.bind fun byte => ?_
  refine (operand_runs mods _ _ w).bind fun destination => ?_
  dsimp only
  rw [register_eq, sure_bind]
  exact .pure _

end LongMode.Guarded

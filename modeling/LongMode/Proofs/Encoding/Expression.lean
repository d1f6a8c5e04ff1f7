import LongMode.Proofs.Encoding.Addressing
import LongMode.Proofs.Encoding.Pointer
import LongMode.Proofs.Text.Numeral
import Mathlib.Data.UInt
/-!
What the text of a memory operand tells. An address is a sum of registers and a displacement, and
its text lists the summands: names without a mark, put together by marks, with the displacement
behind. So the text can be taken apart at its marks, and the names tell the registers and the width
of addresses. A zero and a scale of one do not show, and do not matter either.
-/

namespace LongMode

/-- A text without a mark is told from what follows it, if that is nothing or begins with a mark. -/
theorem append_inj_of_mark {P : Char → Prop} {a b r s : List Char} (ha : ∀ c ∈ a, ¬P c)
    (hb : ∀ c ∈ b, ¬P c) (hr : ∀ c ∈ r.head?, P c) (hs : ∀ c ∈ s.head?, P c)
    (h : a ++ r = b ++ s) : a = b ∧ r = s := by
  induction a generalizing b with
  | nil =>
    cases b with
    | nil => exact ⟨rfl, h⟩
    | cons d b =>
      obtain rfl : r = d :: (b ++ s) := h
      exact absurd (hr d rfl) (hb d List.mem_cons_self)
  | cons c a ih =>
    cases b with
    | nil =>
      obtain rfl : c :: (a ++ r) = s := h
      exact absurd (hs c rfl) (ha c List.mem_cons_self)
    | cons d b =>
      obtain ⟨rfl, htail⟩ := List.cons.inj h
      obtain ⟨rfl, hrest⟩ := ih (fun c hc => ha c (List.mem_cons_of_mem _ hc))
        (fun c hc => hb c (List.mem_cons_of_mem _ hc)) htail
      exact ⟨rfl, hrest⟩

/-- A part of an address: a register, or the instruction pointer where none is given, times a
scale. -/
structure Summand where
  source : Option (Fin 16)
  scale : UInt8

def addressWidths : List Width := [.dword, .qword]

namespace Summand

def name (w : Width) : Option (Fin 16) → String
  | none => if w = .dword then "EIP" else "RIP"
  | some code => (Register.general code w).mnemonic

def scaleText (scale : UInt8) : String := if 1 < scale then "*" ++ toString scale else ""

def text (w : Width) (s : Summand) : List Char :=
  (name w s.source).toList ++ (scaleText s.scale).toList

def value (w : Width) (m : Machine) (s : Summand) : UInt64 :=
  (match s.source with
    | none => m.ip
    | some code => m.get (.general code w)) * s.scale.toUInt64

def Scaled (s : Summand) : Prop := ∃ k < 4, s.scale = Sib.scaleOf k

variable {w w' : Width} {s s' : Summand}

/-- The names of all registers of both widths are different. -/
theorem name_inj : ∀ w ∈ addressWidths, ∀ w' ∈ addressWidths, ∀ a b,
    name w a = name w' b → w = w' ∧ a = b := by decide +kernel

theorem name_plain : ∀ w ∈ addressWidths, ∀ a,
    '+' ∉ (name w a).toList ∧ '-' ∉ (name w a).toList ∧ '*' ∉ (name w a).toList := by decide +kernel

theorem name_letter : ∀ w ∈ addressWidths, ∀ a,
    (name w a).toList ≠ [] ∧ (name w a).toList.head? ≠ some '0' := by decide +kernel

theorem scaleText_inj : ∀ k < 4, ∀ j < 4,
    scaleText (Sib.scaleOf k) = scaleText (Sib.scaleOf j) → k = j := by decide +kernel

theorem scaleText_plain : ∀ k < 4, '+' ∉ (scaleText (Sib.scaleOf k)).toList ∧
    '-' ∉ (scaleText (Sib.scaleOf k)).toList := by decide +kernel

theorem scaleText_head : ∀ k < 4, (scaleText (Sib.scaleOf k)).toList = [] ∨
    (scaleText (Sib.scaleOf k)).toList.head? = some '*' := by decide +kernel

theorem text_inj (hw : w ∈ addressWidths) (hw' : w' ∈ addressWidths) (hs : s.Scaled)
    (hs' : s'.Scaled) (h : s.text w = s'.text w') : w = w' ∧ s = s' := by
  obtain ⟨source, scale⟩ := s
  obtain ⟨source', scale'⟩ := s'
  obtain ⟨k, hk, rfl⟩ := hs
  obtain ⟨j, hj, rfl⟩ := hs'
  have hmark {k : Nat} (hk : k < 4) : ∀ c ∈ (scaleText (Sib.scaleOf k)).toList.head?, c = '*' := by
    intro c hc
    obtain hnil | hstar := scaleText_head k hk
    · rw [hnil] at hc
      cases hc
    · rw [hstar] at hc
      exact (Option.some.inj hc).symm
  obtain ⟨hname, hscale⟩ := append_inj_of_mark (P := (· = '*'))
    (List.forall_mem_ne'.2 (name_plain w hw source).2.2)
    (List.forall_mem_ne'.2 (name_plain w' hw' source').2.2) (hmark hk) (hmark hj) h
  obtain ⟨rfl, rfl⟩ := name_inj w hw w' hw' _ _ (String.toList_inj.1 hname)
  obtain rfl := scaleText_inj k hk j hj (String.toList_inj.1 hscale)
  exact ⟨rfl, rfl⟩

/-- The signs between the parts do not occur in them. -/
theorem text_plain (hw : w ∈ addressWidths) (hs : s.Scaled) :
    ∀ c ∈ s.text w, ¬(c = '+' ∨ c = '-') := by
  obtain ⟨source, scale⟩ := s
  obtain ⟨k, hk, rfl⟩ := hs
  obtain ⟨hplus, hminus, -⟩ := name_plain w hw source
  obtain ⟨hplus', hminus'⟩ := scaleText_plain k hk
  rintro c hc (rfl | rfl)
  · exact (List.mem_append.1 hc).elim hplus hplus'
  · exact (List.mem_append.1 hc).elim hminus hminus'

/-- No part begins like a number. -/
theorem text_letter (hw : w ∈ addressWidths) (s : Summand) :
    ∃ c cs, s.text w = c :: cs ∧ c ≠ '0' := by
  obtain ⟨hnil, hzero⟩ := name_letter w hw s.source
  obtain ⟨c, cs, hcs⟩ := List.exists_cons_of_ne_nil hnil
  rw [hcs] at hzero
  exact ⟨c, cs ++ (scaleText s.scale).toList, by rw [text, hcs, List.cons_append],
    fun h => hzero (congrArg some h)⟩

end Summand

def signedText (d : Int64) : String :=
  if d = 0 then ""
  else if d < 0 then "-" ++ Digits.prefixedUpperHex d.toInt.natAbs
  else "+" ++ Digits.prefixedUpperHex d.toInt.natAbs

theorem toList_signedText (d : Int64) : (signedText d).toList =
    if d = 0 then []
    else (if d < 0 then '-' else '+') :: '0' :: 'x' :: Digits.upperHex d.toInt.natAbs := by
  unfold signedText
  split_ifs
  · rfl
  · rw [String.toList_append, Digits.toList_prefixedUpperHex]
    rfl
  · rw [String.toList_append, Digits.toList_prefixedUpperHex]
    rfl

theorem signedText_inj {d e : Int64} (h : (signedText d).toList = (signedText e).toList) :
    d = e := by
  rw [toList_signedText, toList_signedText] at h
  by_cases hd : d = 0 <;> by_cases he : e = 0
  · rw [hd, he]
  · rw [if_pos hd, if_neg he] at h
    cases h
  · rw [if_neg hd, if_pos he] at h
    cases h
  · rw [if_neg hd, if_neg he] at h
    obtain ⟨hsign, hnumber⟩ := List.cons.inj h
    have habs := Digits.upperHex_inj (List.cons.inj (List.cons.inj hnumber).2).2
    have hneg : d < 0 ↔ e < 0 := by
      by_cases hd0 : d < 0 <;> by_cases he0 : e < 0 <;> simp [hd0, he0] at hsign ⊢
    rw [Int64.lt_iff_toInt_lt, Int64.lt_iff_toInt_lt] at hneg
    have hzero : (0 : Int64).toInt = 0 := rfl
    apply Int64.toInt_inj.1
    omega

theorem toList_intercalate (t : String) (ts : List String) : ("+".intercalate (t :: ts)).toList =
    t.toList ++ (ts.map String.toList).flatMap fun cs => '+' :: cs := by
  induction ts generalizing t with
  | nil => simp
  | cons u ts ih =>
    change ("+".intercalate ((t ++ "+" ++ u) :: ts)).toList = _
    rw [ih, String.toList_append, String.toList_append]
    simp

def joined (w : Width) (ss : List Summand) : List Char := ss.flatMap fun s => '+' :: s.text w

section

variable {w w' : Width} {ss ss' : List Summand} {d e : Int64}

theorem sign_of_head {c : Char} (h : c ∈ (joined w ss ++ (signedText d).toList).head?) :
    c = '+' ∨ c = '-' := by
  cases ss with
  | nil =>
    rw [joined, List.flatMap_nil, List.nil_append, toList_signedText] at h
    split_ifs at h
    · cases h
    · exact .inr (Option.some.inj h).symm
    · exact .inl (Option.some.inj h).symm
  | cons s ss =>
    left
    exact (Option.some.inj h).symm

/-- A part is not a number. -/
theorem joined_ne_signedText (hw : w ∈ addressWidths) (s : Summand) (rest : List Char) :
    joined w (s :: ss) ++ rest ≠ (signedText d).toList := by
  obtain ⟨c, cs, hc, hne⟩ := Summand.text_letter hw s
  rw [joined, List.flatMap_cons, hc, toList_signedText]
  split_ifs
  · nofun
  · intro h
    exact hne (List.cons.inj (List.cons.inj h).2).1
  · intro h
    exact hne (List.cons.inj (List.cons.inj h).2).1

theorem joined_inj (hw : w ∈ addressWidths) (hss : ∀ s ∈ ss, s.Scaled) (hss' : ∀ s ∈ ss', s.Scaled)
    (h : joined w ss ++ (signedText d).toList = joined w ss' ++ (signedText e).toList) :
    ss = ss' ∧ d = e := by
  induction ss generalizing ss' with
  | nil =>
    cases ss' with
    | nil => exact ⟨rfl, signedText_inj h⟩
    | cons s' ss' => exact absurd h.symm (joined_ne_signedText hw s' _)
  | cons s ss ih =>
    cases ss' with
    | nil => exact absurd h (joined_ne_signedText hw s _)
    | cons s' ss' =>
      rw [List.forall_mem_cons] at hss hss'
      have hrest : s.text w ++ (joined w ss ++ (signedText d).toList) =
          s'.text w ++ (joined w ss' ++ (signedText e).toList) := by
        simpa [joined] using h
      obtain ⟨htext, htail⟩ := append_inj_of_mark (Summand.text_plain hw hss.1)
        (Summand.text_plain hw hss'.1) (fun _ => sign_of_head) (fun _ => sign_of_head) hrest
      obtain ⟨-, rfl⟩ := Summand.text_inj hw hw hss.1 hss'.1 htext
      obtain ⟨rfl, hd⟩ := ih hss.2 hss'.2 htail
      exact ⟨rfl, hd⟩

end

/-- The text of a sum that is cut off to the width, without the brackets. Where nothing is added to
the displacement, the sum itself is shown. -/
def sumText (w : Width) (d : Int64) : List Summand → List Char
  | [] => (Digits.prefixedUpperHex (d.toUInt64 &&& w.mask).toNat).toList
  | s :: ss => s.text w ++ (joined w ss ++ (signedText d).toList)

def sumValue (w : Width) (d : Int64) (ss : List Summand) (m : Machine) : UInt64 :=
  (d.toUInt64 + (ss.map (Summand.value w m)).sum) &&& w.mask

/-- Sums with the same text have the same value. -/
theorem sumValue_eq_of_sumText {w w' : Width} {d d' : Int64} {ss ss' : List Summand}
    (hw : w ∈ addressWidths) (hw' : w' ∈ addressWidths) (hss : ∀ s ∈ ss, s.Scaled)
    (hss' : ∀ s ∈ ss', s.Scaled) (h : sumText w d ss = sumText w' d' ss') (m : Machine) :
    sumValue w d ss m = sumValue w' d' ss' m := by
  have hnumber := Digits.toList_prefixedUpperHex
  cases ss with
  | nil =>
    cases ss' with
    | nil =>
      rw [sumText, sumText, hnumber, hnumber] at h
      have hvalue := Digits.upperHex_inj (List.cons.inj (List.cons.inj h).2).2
      simpa [sumValue] using UInt64.toNat_inj.1 hvalue
    | cons s' ss' =>
      obtain ⟨c, cs, hc, hne⟩ := Summand.text_letter hw' s'
      rw [sumText, sumText, hnumber, hc] at h
      exact absurd (List.cons.inj h).1.symm hne
  | cons s ss =>
    cases ss' with
    | nil =>
      obtain ⟨c, cs, hc, hne⟩ := Summand.text_letter hw s
      rw [sumText, sumText, hnumber, hc] at h
      exact absurd (List.cons.inj h).1 hne
    | cons s' ss' =>
      rw [List.forall_mem_cons] at hss hss'
      obtain ⟨htext, htail⟩ := append_inj_of_mark (Summand.text_plain hw hss.1)
        (Summand.text_plain hw' hss'.1) (fun _ => sign_of_head) (fun _ => sign_of_head) h
      obtain ⟨rfl, rfl⟩ := Summand.text_inj hw hw' hss.1 hss'.1 htext
      obtain ⟨rfl, rfl⟩ := joined_inj hw hss.2 hss'.2 htail
      rfl

namespace Pointer

def leading (p : Pointer) : Option Summand :=
  if p.ipRelative then some ⟨none, 1⟩ else p.base.map fun r => ⟨some r.code, 1⟩

def scaledIndex (p : Pointer) : Option Summand := p.index.map fun r => ⟨some r.code, p.scale⟩

/-- The parts of an address beside the displacement. -/
def summands (p : Pointer) : List Summand := p.leading.toList ++ p.scaledIndex.toList

namespace Encodable

variable {p q : Pointer}

theorem addressWidth_mem (h : p.Encodable) : p.addressWidth ∈ addressWidths := by
  obtain hw | hw := h.addressWidth <;> rw [hw] <;> decide

theorem scaled (h : p.Encodable) : ∀ s ∈ p.summands, s.Scaled := by
  have hone : ∃ k < 4, (1 : UInt8) = Sib.scaleOf k := ⟨0, by decide, rfl⟩
  intro s hs
  obtain hs | hs := List.mem_append.1 hs
  · rw [Option.mem_toList, leading] at hs
    split_ifs at hs
    · cases hs
      exact hone
    · obtain ⟨r, -, rfl⟩ := Option.map_eq_some_iff.1 hs
      exact hone
  · obtain ⟨r, -, rfl⟩ := Option.map_eq_some_iff.1 (Option.mem_toList.1 hs)
    exact h.scale

/-- The address is the sum of its parts. -/
theorem resolve_eq_sumValue (h : p.Encodable) (m : Machine) :
    p.resolve m = sumValue p.addressWidth p.displacement p.summands m := by
  have hleading : (p.leading.toList.map (Summand.value p.addressWidth m)).sum =
      (if p.ipRelative then m.ip else 0) + (p.base.map m.get).getD 0 := by
    unfold leading
    split_ifs with hip
    · rw [(h.ipRelative hip).1]
      simp [Summand.value]
    · cases hb : p.base with
      | none => rfl
      | some r =>
        obtain ⟨code, rfl⟩ := h.base r hb
        simp [Summand.value, Register.general]
  have hindex : (p.scaledIndex.toList.map (Summand.value p.addressWidth m)).sum =
      (p.index.map fun r => m.get r * p.scale.toUInt64).getD 0 := by
    unfold scaledIndex
    cases hi : p.index with
    | none => rfl
    | some r =>
      obtain ⟨code, -, rfl⟩ := h.index r hi
      simp [Summand.value, Register.general]
  rw [resolve_eq, sum, sumValue, summands, List.map_append, List.sum_append, hleading, hindex,
    ← UInt64.add_assoc, ← UInt64.add_assoc]

/-- The parts are shown in their order. -/
theorem registerTerms_eq (h : p.Encodable) :
    p.registerTerms.map String.toList = p.summands.map (Summand.text p.addressWidth) := by
  have hindex : (p.index.map fun r => r.mnemonic ++
      (if 1 < p.scale then "*" ++ toString p.scale else "")).toList.map String.toList =
        p.scaledIndex.toList.map (Summand.text p.addressWidth) := by
    unfold scaledIndex
    cases hi : p.index with
    | none => rfl
    | some r =>
      obtain ⟨code, -, rfl⟩ := h.index r hi
      simp [Summand.text, Summand.name, Summand.scaleText, Register.general]
  -- the first part is put together from at most one name
  have hleading (a : Option (Fin 16)) {names : List String}
      (hnames : String.join names = Summand.name p.addressWidth a) :
      (if (String.join names).isEmpty then [] else [String.join names]).map String.toList =
        [Summand.text p.addressWidth ⟨a, 1⟩] := by
    have hshown : ¬(String.join names).isEmpty := by
      rw [String.isEmpty_iff, hnames, ← String.toList_eq_nil_iff]
      exact (Summand.name_letter p.addressWidth h.addressWidth_mem a).1
    rw [if_neg hshown, hnames]
    simp [Summand.text, Summand.scaleText]
  unfold registerTerms summands leading
  rw [List.map_append, List.map_append, hindex]
  refine congrArg (· ++ _) ?_
  cases hip : p.ipRelative with
  | true =>
    rw [(h.ipRelative hip).1]
    exact hleading none (by simp [String.join, Summand.name])
  | false =>
    cases hb : p.base with
    | none => rfl
    | some r =>
      obtain ⟨code, rfl⟩ := h.base r hb
      exact hleading (some code) (by simp [String.join, Summand.name, Register.general])

theorem expression_eq (h : p.Encodable) : p.expression.toList =
    ((p.segment.map fun s => s.name ++ ":").getD "").toList ++
      '[' :: (sumText p.addressWidth p.displacement p.summands ++ [']']) := by
  have hterms := h.registerTerms_eq
  have hbody : ("+".intercalate p.registerTerms ++ if p.registerTerms.isEmpty then
      Digits.prefixedUpperHex (p.displacement.toUInt64 &&& p.addressWidth.mask).toNat
      else signedText p.displacement).toList =
        sumText p.addressWidth p.displacement p.summands := by
    rw [String.toList_append]
    cases hs : p.summands with
    | nil =>
      rw [hs, List.map_nil, List.map_eq_nil_iff] at hterms
      rw [hterms]
      rfl
    | cons s ss =>
      rw [hs] at hterms
      obtain ⟨t, ts, hcons, ht, hts⟩ := List.map_eq_cons_iff.1 hterms
      rw [hcons, toList_intercalate, ht, hts, List.append_assoc, List.flatMap_map]
      rfl
  change ((p.segment.map fun s => s.name ++ ":").getD "" ++ "[" ++
    "+".intercalate p.registerTerms ++ (if p.registerTerms.isEmpty then
      Digits.prefixedUpperHex (p.displacement.toUInt64 &&& p.addressWidth.mask).toNat
      else signedText p.displacement) ++ "]").toList = _
  rw [String.toList_append] at hbody
  simp only [String.toList_append, List.append_assoc, ← hbody]
  rfl

/-- Addresses that are shown alike are the same. -/
theorem resolve_eq_of_expression (hp : p.Encodable) (hq : q.Encodable)
    (h : p.expression = q.expression) (m : Machine) : p.resolve m = q.resolve m := by
  have hsegment (s : Option SegmentRegister) :
      ∀ c ∈ ((s.map fun s => s.name ++ ":").getD "").toList, ¬c = '[' := by
    rw [List.forall_mem_ne']
    obtain _ | s := s
    · decide
    · cases s <;> decide
  have htext := congrArg String.toList h
  rw [hp.expression_eq, hq.expression_eq] at htext
  obtain ⟨-, hbrackets⟩ := append_inj_of_mark (P := (· = '[')) (hsegment p.segment)
    (hsegment q.segment) (by simp) (by simp) htext
  have hsum := List.append_cancel_right (List.cons.inj hbrackets).2
  rw [hp.resolve_eq_sumValue, hq.resolve_eq_sumValue,
    sumValue_eq_of_sumText hp.addressWidth_mem hq.addressWidth_mem hp.scaled hq.scaled hsum]

end Encodable

end Pointer

namespace ModRm

/-- Two places in memory that are shown alike are the same place in every state of the machine,
whatever bytes and prefixes name them. -/
theorem expression_faithful {mods mods' : Modifiers} {w w' v v' : Width} {form form' : Form}
    {f f' : Fetch} {a a' next next' : UInt64} {d d' : ModRm} {p q : Pointer}
    (hd : decode mods w v form f a = .ok (d, next)) (hp : d.destination = .memory p)
    (hd' : decode mods' w' v' form' f' a' = .ok (d', next')) (hq : d'.destination = .memory q)
    (h : p.expression = q.expression) (m : Machine) : p.resolve m = q.resolve m :=
  (decode_encodable mods w v form f a d next hd p hp).resolve_eq_of_expression
    (decode_encodable mods' w' v' form' f' a' d' next' hd' q hq) h m

/-- `RAX` as a base, and behind it `RAX` as an index without a base. -/
def eitherWay : Machine :=
  (Machine.ofCode [0x00, 0x04, 0x05, 0, 0, 0, 0]).set (.accumulator .qword) 7

/-- Both are shown as `[RAX]`. -/
theorem eitherWay_alike : ∃ p q : Pointer, p ≠ q ∧ p.expression = "[RAX]" ∧
    p.expression = q.expression ∧ p.resolve eitherWay = q.resolve eitherWay := by
  let p : Pointer := { width := .qword, addressWidth := .qword, base := some (.general 0 .qword) }
  let q : Pointer := { width := .qword, addressWidth := .qword, index := some (.general 0 .qword) }
  have hp : decode {} .qword .qword {} eitherWay.memory.readByte 0x1000 =
      .ok (⟨0, 0, 0, .memory p, some (.register ⟨.general, 0, .qword, false⟩)⟩, 0x1001) := by rfl
  have hq : decode {} .qword .qword {} eitherWay.memory.readByte 0x1001 =
      .ok (⟨0, 0, 4, .memory q, some (.register ⟨.general, 0, .qword, false⟩)⟩, 0x1007) := by rfl
  have halike : p.expression = q.expression := by decide +kernel
  exact ⟨p, q, by decide, by decide +kernel, halike,
    expression_faithful hp rfl hq rfl halike eitherWay⟩

end ModRm

end LongMode

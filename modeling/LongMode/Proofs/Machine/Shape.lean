import LongMode.Proofs.Json.Record
import LongMode.Proofs.Machine.Saved
/-!
Which documents are machines: what a saved machine has under which name. Flags may be left out, cells
stand under their addresses in decimal digits, and what has no place in a machine is passed over.
-/

namespace LongMode

namespace Json.Document

def IsWord (d : Document) : Prop := ∃ v : UInt64, d = .number (.natural v.toNat)

def IsByte (d : Document) : Prop := ∃ v : UInt8, d = .number (.natural v.toNat)

def IsText (d : Document) : Prop := ∃ s, d = .text s

def IsBool (d : Document) : Prop := ∃ b, d = .bool b

/-- Null stands for an undefined flag. -/
def IsFlag (d : Document) : Prop := d = .null ∨ d.IsBool

def IsList (shape : Document → Prop) (d : Document) : Prop :=
  ∃ items, d = .array items none ∧ ∀ e ∈ items, shape e

def IsVector (n : Nat) (shape : Document → Prop) (d : Document) : Prop :=
  ∃ items, d = .array items none ∧ (∀ e ∈ items, shape e) ∧ items.length = n

def IsCells (d : Document) : Prop :=
  ∃ cells : List (UInt64 × Document),
    d = .object (cells.map fun c => (.ok (toString c.1.toNat), c.2)) none ∧ ∀ c ∈ cells, c.2.IsByte

end Json.Document

open Json Document

def Segment.parts : List Slot :=
  [⟨"name", true, IsText⟩, ⟨"start", true, IsWord⟩, ⟨"end", true, IsWord⟩]

def Memory.parts : List Slot :=
  [⟨"cells", true, IsCells⟩, ⟨"segments", true, IsList (IsRecord Segment.parts)⟩,
    ⟨"end", true, IsWord⟩, ⟨"strict", true, IsBool⟩]

def RegisterFile.parts : List Slot :=
  [⟨"slots", true, IsVector 32 IsWord⟩, ⟨"sse", true, IsVector 16 (IsVector 32 IsByte)⟩]

def Flags.parts : List Slot := Flags.memberNames.map fun name => ⟨name, false, IsFlag⟩

def Machine.parts : List Slot :=
  [⟨"flags", true, IsRecord Flags.parts⟩, ⟨"memory", true, IsRecord Memory.parts⟩,
    ⟨"registers", true, IsRecord RegisterFile.parts⟩, ⟨"instruction_pointer", true, IsWord⟩,
    ⟨"breakpoints", true, IsList IsWord⟩]

/-- The document says what a machine has: its parts under their names or in their order. -/
def Machine.HasShape (d : Document) : Prop := IsRecord Machine.parts d

namespace Json.Reader

theorem natural_ok_iff {bound : Nat} {d : Document} {n : Nat} :
    natural bound d = .ok n ↔ n < bound ∧ d = .number (.natural n) := by
  constructor
  · intro h
    unfold natural at h
    split at h
    · split_ifs at h with hn
      cases h
      exact ⟨hn, rfl⟩
    · cases h
  · rintro ⟨hn, rfl⟩
    exact if_pos hn

theorem word_takes : Takes word IsWord := by
  intro d _
  refine map_ok_iff.trans ⟨?_, ?_⟩
  · rintro ⟨n, hn⟩
    obtain ⟨hlt, rfl⟩ := natural_ok_iff.1 hn
    exact ⟨UInt64.ofNat n, by rw [UInt64.toNat_ofNat_of_lt' hlt]⟩
  · rintro ⟨v, rfl⟩
    exact ⟨v.toNat, natural_ok_iff.2 ⟨v.toNat_lt, rfl⟩⟩

theorem byte_takes : Takes byte IsByte := by
  intro d _
  refine map_ok_iff.trans ⟨?_, ?_⟩
  · rintro ⟨n, hn⟩
    obtain ⟨hlt, rfl⟩ := natural_ok_iff.1 hn
    exact ⟨UInt8.ofNat n, by rw [UInt8.toNat_ofNat_of_lt' hlt]⟩
  · rintro ⟨v, rfl⟩
    exact ⟨v.toNat, natural_ok_iff.2 ⟨v.toNat_lt, rfl⟩⟩

theorem text_takes : Takes text IsText := by
  intro d _
  cases d <;> simp [text, IsText]

theorem bool_takes : Takes bool IsBool := by
  intro d _
  cases d <;> simp [bool, IsBool]

theorem flag_takes : Takes (option bool) IsFlag := by
  intro d _
  cases d <;> simp [option, bool, IsFlag, IsBool, Except.map]

section Lists

variable {α : Type} {reader : Reader α} {shape : Document → Prop}

theorem each_ok_iff (h : Takes reader shape) {items : List Document}
    (hd : ∀ d ∈ items, d.Passable) :
    (∃ xs, each reader items = .ok xs) ↔ ∀ d ∈ items, shape d := by
  induction items with
  | nil => simp [each]
  | cons d rest ih =>
    have hrest := ih fun e he => hd e (List.mem_cons_of_mem d he)
    have hhead := h d (hd d (by simp))
    rw [each, bind_ok_iff, List.forall_mem_cons, ← hhead, ← hrest]
    constructor
    · rintro ⟨x, hx, hxs⟩
      obtain ⟨xs, hxs, -⟩ := bind_ok_iff.1 hxs
      exact ⟨⟨x, hx⟩, xs, hxs⟩
    · rintro ⟨⟨x, hx⟩, xs, hxs⟩
      exact ⟨x, hx, bind_ok_iff.2 ⟨xs, hxs, x :: xs, rfl⟩⟩

theorem length_of_each {items : List Document} {xs : List α} (h : each reader items = .ok xs) :
    xs.length = items.length := by
  induction items generalizing xs with
  | nil =>
    cases h
    rfl
  | cons d rest ih =>
    obtain ⟨x, -, h⟩ := ok_of_bind h
    obtain ⟨ys, hys, h⟩ := ok_of_bind h
    cases h
    rw [List.length_cons, List.length_cons, ih hys]

theorem list_ok_iff {d : Document} {xs : List α} :
    list reader d = .ok xs ↔ ∃ items, d = .array items none ∧ each reader items = .ok xs := by
  constructor
  · intro h
    cases d with
    | array items closing =>
      obtain ⟨ys, hys, h⟩ := ok_of_bind h
      obtain ⟨_, hclosed, h⟩ := ok_of_bind h
      cases h
      exact ⟨items, by rw [closed_eq_ok hclosed], hys⟩
    | null | bool | number | text | object | broken => cases h
  · rintro ⟨items, rfl, h⟩
    rw [list, h]
    rfl

theorem list_takes (h : Takes reader shape) : Takes (list reader) (IsList shape) := by
  intro d hd
  constructor
  · rintro ⟨xs, hxs⟩
    obtain ⟨items, rfl, heach⟩ := list_ok_iff.1 hxs
    exact ⟨items, rfl, (each_ok_iff h fun e he => hd.item he).1 ⟨xs, heach⟩⟩
  · rintro ⟨items, rfl, hshape⟩
    obtain ⟨xs, hxs⟩ := (each_ok_iff h fun e he => hd.item he).2 hshape
    exact ⟨xs, list_ok_iff.2 ⟨items, rfl, hxs⟩⟩

theorem vector_takes (n : Nat) (h : Takes reader shape) :
    Takes (vector n reader) (IsVector n shape) := by
  intro d hd
  constructor
  · rintro ⟨v, hv⟩
    obtain ⟨xs, hxs, hsize⟩ := ok_of_bind hv
    obtain ⟨items, rfl, heach⟩ := list_ok_iff.1 hxs
    split at hsize
    · rename_i hlength
      exact ⟨items, rfl, (each_ok_iff h fun e he => hd.item he).1 ⟨xs, heach⟩,
        (length_of_each heach).symm.trans hlength⟩
    · cases hsize
  · rintro ⟨items, rfl, hshape, hlength⟩
    obtain ⟨xs, hxs⟩ := (each_ok_iff h fun e he => hd.item he).2 hshape
    refine bind_ok_iff.2 ⟨xs, list_ok_iff.2 ⟨items, rfl, hxs⟩, ?_⟩
    rw [dif_pos ((length_of_each hxs).trans hlength)]
    exact ⟨_, rfl⟩

end Lists

theorem required_eq_ok {α : Type} {o : Option α} {x : α} : required o = .ok x ↔ o = some x := by
  cases o <;> simp [required]

theorem functor_map_ok_iff {α β : Type} {r : Except Refusal α} {f : α → β} :
    (∃ y, f <$> r = .ok y) ↔ ∃ x, r = .ok x := map_ok_iff

/-- A record is read and then made into something else. -/
theorem record_takes {σ α : Type} (known : List (Slot × Field σ)) {surplus : Refusal} {blank : σ}
    {make : σ → Except Refusal α} (h : Describes known)
    (hblank : ∀ k ∈ known, k.2.isSet blank = false)
    (hmake : ∀ s, (∃ x, make s = .ok x) ↔ Complete known s) :
    Takes (fun d => record surplus (known.map Prod.snd) blank d >>= make)
      (IsRecord (known.map Prod.fst)) := by
  intro d hd
  rw [← record_ok_iff h hblank surplus hd, bind_ok_iff]
  exact exists_congr fun s => and_congr_right fun _ => hmake s

end Json.Reader

open Json.Reader

namespace Flags

theorem describes : Describes (parts.zip (memberNames.map field)) := by
  have hzip : parts.zip (memberNames.map field) =
      memberNames.map fun name => (⟨name, false, IsFlag⟩, field name) := by
    rw [parts, List.zip_map']
  refine ⟨by decide, ?_⟩
  rw [hzip]
  intro k hk
  obtain ⟨name, -, rfl⟩ := List.mem_map.1 hk
  refine .of flag_takes fun s x o ho => ?_
  obtain ⟨other, -, rfl⟩ := List.mem_map.1 ho
  change (List.lookup other ((name, x) :: s)).isSome = _
  rw [List.lookup_cons]
  cases other == name <;> simp [field, Field.of]

theorem reader_takes (surplus : Refusal) : Takes (reader surplus) (IsRecord parts) :=
  record_takes (parts.zip (memberNames.map field)) describes
    (by simp [parts, memberNames, field, Field.of]) fun s =>
      ⟨fun _ => by simp [Complete, parts, memberNames], fun _ => ⟨ofDraft s, rfl⟩⟩

end Flags

namespace Segment

theorem describes : Describes (parts.zip fields) := by
  refine ⟨by decide, ?_⟩
  simp only [parts, fields, List.zip_cons_cons, List.zip_nil_right, List.forall_mem_cons]
  refine ⟨.of text_takes ?_, .of word_takes ?_, .of word_takes ?_, by simp⟩
  all_goals simp [Field.of]

theorem reader_takes : Takes reader (IsRecord parts) := by
  refine record_takes (parts.zip fields) describes
    (by simp [parts, fields, Field.of]) fun s => ?_
  simp [bind_ok_iff, functor_map_ok_iff, required_eq_ok, Complete, parts, fields, Field.of,
    Option.isSome_iff_exists]

end Segment

namespace RegisterFile

theorem describes : Describes (parts.zip fields) := by
  refine ⟨by decide, ?_⟩
  simp only [parts, fields, List.zip_cons_cons, List.zip_nil_right, List.forall_mem_cons]
  refine ⟨.of (vector_takes 32 word_takes) ?_,
    .of (vector_takes 16 (vector_takes 32 byte_takes)) ?_, by simp⟩
  all_goals simp [Field.of]

theorem reader_takes : Takes reader (IsRecord parts) := by
  refine record_takes (parts.zip fields) describes
    (by simp [parts, fields, Field.of]) fun s => ?_
  simp [bind_ok_iff, functor_map_ok_iff, required_eq_ok, Complete, parts, fields, Field.of,
    Option.isSome_iff_exists]

end RegisterFile

namespace Memory

/-- Only the spelling of an address stands for it. -/
theorem readAddress_eq_ok {name : String} {a : UInt64} (h : readAddress name = .ok a) :
    name = toString a.toNat := by
  unfold readAddress at h
  split at h
  · cases h
  · rename_i c cs hname
    split_ifs at h
    obtain ⟨⟨number, rest⟩, hread, h⟩ := ok_of_bind h
    match number with
    | none => cases h
    | some (.other _) => cases h
    | some (.natural n) =>
      change (if UInt64.size ≤ n then _ else _) = _ at h
      split_ifs at h with hn hrest
      cases h
      obtain rfl := List.isEmpty_iff.1 hrest
      have htext := Json.Number.eq_toDigits_of_read hread
      rw [UInt64.toNat_ofNat_of_lt' (not_le.1 hn), Nat.toString_eq_ofList_toDigits, ← htext,
        String.ofList_toList]

theorem fillCells_ok_iff {cells : Std.ExtTreeMap UInt64 UInt8}
    {members : List (Except Refusal String × Document)} (hd : ∀ m ∈ members, m.2.Passable) :
    (∃ t, fillCells cells members = .ok t) ↔ ∃ written : List (UInt64 × Document),
      members = written.map (fun c => (.ok (toString c.1.toNat), c.2)) ∧
        ∀ c ∈ written, c.2.IsByte := by
  induction members generalizing cells with
  | nil => simp [fillCells]
  | cons m rest ih =>
    have hrest (m) (hm : m ∈ rest) : m.2.Passable := hd m (List.mem_cons_of_mem _ hm)
    have hbyte := byte_takes m.2 (hd m (by simp))
    constructor
    · rintro ⟨t, ht⟩
      obtain ⟨name, hname, ht⟩ := ok_of_bind ht
      obtain ⟨a, ha, ht⟩ := ok_of_bind ht
      obtain ⟨b, hb, ht⟩ := ok_of_bind ht
      obtain ⟨written, rfl, hbytes⟩ := (ih hrest).1 ⟨t, ht⟩
      refine ⟨(a, m.2) :: written, ?_, List.forall_mem_cons.2 ⟨hbyte.1 ⟨b, hb⟩, hbytes⟩⟩
      rw [List.map_cons, ← readAddress_eq_ok ha, ← hname]
    · rintro ⟨written, hwritten, hbytes⟩
      cases written with
      | nil => cases hwritten
      | cons c written =>
        obtain ⟨rfl, rfl⟩ := List.cons.inj hwritten
        obtain ⟨hc, hbytes⟩ := List.forall_mem_cons.1 hbytes
        obtain ⟨b, hb⟩ := hbyte.2 hc
        obtain ⟨t, ht⟩ : ∃ t, fillCells (cells.insert c.1 b) _ = .ok t :=
          (ih hrest).2 ⟨written, rfl, hbytes⟩
        refine ⟨t, ?_⟩
        change (readAddress (toString c.1.toNat) >>= fun a => byte c.2 >>= fun b => _) = _
        rw [readAddress_toString, hb]
        exact ht

theorem cellsReader_takes : Takes cellsReader IsCells := by
  intro d hd
  constructor
  · rintro ⟨cells, hcells⟩
    cases d with
    | object members closing =>
      obtain ⟨t, ht, hcells⟩ := ok_of_bind hcells
      obtain ⟨_, hclosed, -⟩ := ok_of_bind hcells
      obtain rfl := closed_eq_ok hclosed
      obtain ⟨written, rfl, hbytes⟩ := (fillCells_ok_iff fun m hm => hd.member hm).1 ⟨t, ht⟩
      exact ⟨written, rfl, hbytes⟩
    | null | bool | number | text | array | broken => cases hcells
  · rintro ⟨written, rfl, hbytes⟩
    obtain ⟨t, ht⟩ : ∃ t, fillCells ∅ _ = .ok t :=
      (fillCells_ok_iff fun m hm => hd.member hm).2 ⟨written, rfl, hbytes⟩
    refine ⟨t, ?_⟩
    rw [cellsReader, ht]
    rfl

theorem describes : Describes (parts.zip fields) := by
  refine ⟨by decide, ?_⟩
  simp only [parts, fields, List.zip_cons_cons, List.zip_nil_right, List.forall_mem_cons]
  refine ⟨.of cellsReader_takes ?_, .of (list_takes Segment.reader_takes) ?_, .of word_takes ?_,
    .of bool_takes ?_, by simp⟩
  all_goals simp [Field.of]

theorem reader_takes : Takes reader (IsRecord parts) := by
  refine record_takes (parts.zip fields) describes
    (by simp [parts, fields, Field.of]) fun s => ?_
  simp [bind_ok_iff, functor_map_ok_iff, required_eq_ok, Complete, parts, fields, Field.of,
    Option.isSome_iff_exists]

end Memory

namespace Machine

theorem describes : Describes (parts.zip fields) := by
  refine ⟨by decide, ?_⟩
  simp only [parts, fields, List.zip_cons_cons, List.zip_nil_right, List.forall_mem_cons]
  refine ⟨.of (Flags.reader_takes .mismatch) ?_, .of Memory.reader_takes ?_,
    .of RegisterFile.reader_takes ?_, .of word_takes ?_, .of (list_takes word_takes) ?_, by simp⟩
  all_goals simp [Field.of]

theorem reader_takes : Takes reader HasShape := by
  refine record_takes (parts.zip fields) describes
    (by simp [parts, fields, Field.of]) fun s => ?_
  simp [bind_ok_iff, functor_map_ok_iff, required_eq_ok, Complete, parts, fields, Field.of,
    Option.isSome_iff_exists]

/-- What is found in a text can be passed over. -/
theorem passable_of_parse {text : String} {d : Document} (h : parse text = .ok d) :
    d.Passable := by
  obtain ⟨found, h⟩ := ok_of_readText h
  cases hinspect : found.inspect 0 with
  | error r =>
    rw [hinspect] at h
    cases h
  | ok =>
    rw [hinspect] at h
    cases h
    exact canonical_passable found hinspect

end Machine

end LongMode

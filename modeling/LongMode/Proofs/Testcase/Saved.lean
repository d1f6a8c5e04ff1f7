import LongMode.Proofs.Json.Gives
import LongMode.Proofs.Machine.Saved
import LongMode.Testcase.Json
/-!
A testcase that is written is read back as it was. Bytes are told from hexadecimal text by the bracket
in front of them, flags that are undefined are written as null, and the registers of a checkpoint are
written in the order of their names. What is read has its registers in that order.
-/

namespace LongMode

open Json Json.Reader

namespace Json

theorem Shallow.ofList {α : Type} {n : Nat} {write : α → Json} (h : ∀ x, Shallow n (write x))
    (xs : List α) : Shallow (n + 1) (ofList write xs) := by
  refine .array fun j hj => ?_
  obtain ⟨x, -, rfl⟩ := List.mem_map.1 hj
  exact h x

theorem Shallow.word {n : Nat} (v : UInt64) : Shallow n (.number v.toNat) := .number v.toNat_lt

namespace Reader

theorem eachNamed_documents {α : Type} {reader : Reader α} (write : α → Json)
    (h : ∀ x, reader (write x).document = .ok x) (ms : List (String × α)) :
    eachNamed reader (namedDocuments (ms.map fun m => (m.1, write m.2))) = .ok ms := by
  induction ms with
  | nil => rfl
  | cons m ms ih =>
    rw [List.map_cons, namedDocuments, eachNamed, ok_bind, h, ok_bind, ih]
    rfl

end Reader

end Json

theorem readWord_natural (depth : Nat) (v : UInt64) :
    readWord depth (.number (.natural v.toNat)) = .ok v := word_natural v

namespace Code

theorem shallow (c : Code) {n : Nat} : Shallow (n + 1) c.toJson := by
  cases c with
  | text s => exact .text s
  | bytes bs => exact .ofList (fun b => (Plain.byte b).shallow) bs

theorem reader_document (c : Code) {depth : Nat} (hdepth : depth < Document.maxDepth) :
    reader depth c.toJson.document = .ok c := by
  have hinspect := (c.shallow (n := 0)).inspect (Nat.succ_le_of_lt hdepth)
  cases c with
  | text s => rfl
  | bytes bs =>
    have hbytes : list byte (Json.ofList (fun b => .number b.toNat) bs).document = .ok bs :=
      list_ofList byte_natural bs
    change (Document.inspect depth _ >>= fun _ => (list byte _).map bytes) = _
    rw [hinspect, ok_bind, toJson, hbytes]
    rfl

end Code

namespace MemoryExpectation

theorem shallow (e : MemoryExpectation) : Shallow 2 e.toJson := by
  refine .object ?_
  simp [Shallow.word, Code.shallow]

theorem reader_document (e : MemoryExpectation) : reader e.toJson.document = .ok e := by
  have hbytes := e.bytes.reader_document (show 5 < Document.maxDepth by decide)
  simp [toJson, document, namedDocuments, reader, record, fillNamed, fields, Field.of, hbytes,
    readWord_natural, Document.closed, Except.map, required, pure, Except.pure, bind, Except.bind]

end MemoryExpectation

namespace Flags

theorem shallow (f : Flags) {n : Nat} : Shallow (n + 1) f.toJson := by
  have hflag (b : Option Bool) : Shallow n (ofOption .bool b) := by
    cases b with
    | none => exact .null
    | some b => exact .bool b
  refine .object ?_
  simp [memberNames, toList, hflag]

/-- Flags are read back in the order in which they are listed, too. -/
theorem reader_listed (surplus : Refusal) (f : Flags) :
    reader surplus f.toJson.document = .ok f := by
  have hflag (b : Option Bool) : option bool (ofOption .bool b).document = .ok b := by
    cases b <;> rfl
  simp [toJson, toList, document, namedDocuments, reader, record, fillNamed, memberNames, field,
    Field.of, hflag, ofDraft, Document.closed, Except.map, pure, Except.pure, bind, Except.bind,
    List.lookup_cons]

end Flags

namespace Checkpoint

def Ordered (c : Checkpoint) : Prop := c.registers.Pairwise (·.1 < ·.1)

def registersJson (registers : List (String × UInt64)) : Json :=
  .object (registers.map fun m => (m.1, .number m.2.toNat))

theorem toJson_eq (c : Checkpoint) : c.toJson =
    .object [("address", .number c.address.toNat), ("registers", registersJson c.registers),
      ("memory", Json.ofList MemoryExpectation.toJson c.memory), ("flags", c.flags.toJson)] := rfl

theorem registersReader_document {registers : List (String × UInt64)}
    (h : registers.Pairwise (·.1 < ·.1)) :
    registersReader (registersJson registers).document = .ok registers := by
  have hmembers : members (readWord 4) (registersJson registers).document = .ok registers := by
    rw [registersJson, document, members,
      eachNamed_documents (fun v : UInt64 => .number v.toNat) (readWord_natural 4)]
    rfl
  rw [registersReader, hmembers, ok_bind, byName_of_sorted h, lastOfName_of_sorted h]
  rfl

theorem ordered_of_registersReader {d : Document} {registers : List (String × UInt64)}
    (h : registersReader d = .ok registers) : registers.Pairwise (·.1 < ·.1) := by
  obtain ⟨members, -, h⟩ := ok_of_bind h
  cases h
  exact lastOfName_strict (byName_sorted members)

theorem ordered_of_reader {d : Document} {c : Checkpoint} (h : reader d = .ok c) : c.Ordered := by
  obtain ⟨s, hs, h⟩ := ok_of_bind h
  obtain ⟨address, -, h⟩ := ok_of_bind h
  cases h
  have hregisters : ∀ rs ∈ s.registers, rs.Pairwise (·.1 < ·.1) := by
    refine record_gives (P := fun s => ∀ rs ∈ s.registers, rs.Pairwise (·.1 < ·.1)) ?_ (by simp) hs
    simp only [fields, List.forall_mem_cons]
    refine ⟨.of fun s _ _ hs _ => hs, .of fun s _ registers _ hd => ?_, .of fun s _ _ hs _ => hs,
      .of fun s _ _ hs _ => hs, by simp⟩
    intro rs hrs
    obtain rfl := Option.some.inj hrs
    exact ordered_of_registersReader hd
  cases hread : s.registers with
  | none => exact .nil
  | some registers => exact hregisters registers hread

theorem shallow (c : Checkpoint) : Shallow 4 c.toJson := by
  have hregisters : Shallow 3 (registersJson c.registers) := by
    refine .object fun m hm => ?_
    obtain ⟨register, -, rfl⟩ := List.mem_map.1 hm
    exact .word register.2
  rw [toJson_eq]
  refine .object ?_
  simp [hregisters, Shallow.word, Shallow.ofList, MemoryExpectation.shallow, Flags.shallow]

theorem reader_document {c : Checkpoint} (h : c.Ordered) : reader c.toJson.document = .ok c := by
  have hregisters := registersReader_document h
  have hmemory := list_ofList MemoryExpectation.reader_document c.memory
  have hflags := Flags.reader_listed .malformed c.flags
  rw [toJson_eq]
  simp [document, namedDocuments, reader, record, fillNamed, fields, Field.of, hregisters, hmemory,
    hflags, readWord_natural, Document.closed, Except.map, required, pure, Except.pure, bind,
    Except.bind]

end Checkpoint

namespace Testcase

def Ordered (t : Testcase) : Prop := ∀ c ∈ t.checkpoints, c.Ordered

theorem ordered_of_reader {d : Document} {t : Testcase} (h : reader d = .ok t) : t.Ordered := by
  obtain ⟨s, hs, h⟩ := ok_of_bind h
  obtain ⟨name, -, h⟩ := ok_of_bind h
  obtain ⟨code, -, h⟩ := ok_of_bind h
  cases h
  have hcheckpoints : ∀ cs ∈ s.checkpoints, ∀ c ∈ cs, c.Ordered := by
    refine record_gives (P := fun s => ∀ cs ∈ s.checkpoints, ∀ c ∈ cs, c.Ordered) ?_ (by simp) hs
    simp only [fields, List.forall_mem_cons]
    refine ⟨.of fun s _ _ hs _ => hs, .of fun s _ _ hs _ => hs, .of fun s _ checkpoints _ hd => ?_,
      by simp⟩
    intro cs hcs
    obtain rfl := Option.some.inj hcs
    exact list_gives (fun d c => Checkpoint.ordered_of_reader) hd
  cases hread : s.checkpoints with
  | none => simp [Ordered]
  | some checkpoints => exact hcheckpoints checkpoints hread

/-- A testcase has at most six brackets one inside the other. -/
theorem shallow (t : Testcase) : Shallow 6 t.toJson := by
  refine .object ?_
  simp [Shallow.text, Code.shallow, Shallow.ofList, Checkpoint.shallow]

theorem reader_document {t : Testcase} (h : t.Ordered) : reader t.toJson.document = .ok t := by
  have hcode := t.code.reader_document (show 1 < Document.maxDepth by decide)
  have hcheckpoints : list Checkpoint.reader
      (Json.ofList Checkpoint.toJson t.checkpoints).document = .ok t.checkpoints :=
    list_ofList_of_mem fun c hc => Checkpoint.reader_document (h c hc)
  simp [toJson, document, namedDocuments, reader, record, fillNamed, fields, Field.of, hcode,
    hcheckpoints, Reader.text, Document.closed, Except.map, required, pure, Except.pure, bind,
    Except.bind]

end Testcase

end LongMode

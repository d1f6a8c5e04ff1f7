import LongMode.Machine.Json
import LongMode.Proofs.Json.Parse
/-!
A saved machine is read back as it was. Cells are saved under their addresses in the order of the
addresses' spellings, which differ from each other, and so they make the same map again; every other
part is read by the reader that looks for it under its name.
-/

namespace LongMode

open Json

namespace Json

theorem sortedItems_eq_map (js : List Json) : sortedItems js = js.map sorted := by
  induction js with
  | nil => rfl
  | cons j js ih => rw [sortedItems, ih, List.map_cons]

theorem sortedMembers_eq_map (ms : List (String × Json)) :
    sortedMembers ms = ms.map fun m => (m.1, m.2.sorted) := by
  induction ms with
  | nil => rfl
  | cons m ms ih => rw [sortedMembers, ih, List.map_cons]

theorem sorted_ofList {α : Type} (write : α → Json) (xs : List α) :
    (ofList write xs).sorted = ofList (fun x => (write x).sorted) xs := by
  rw [ofList, sorted, sortedItems_eq_map, List.map_map]
  rfl

theorem Plain.ofList {α : Type} {n : Nat} {write : α → Json} (h : ∀ x, Plain n (write x))
    (xs : List α) : Plain (n + 1) (ofList write xs) := by
  refine .array fun j hj => ?_
  obtain ⟨x, -, rfl⟩ := List.mem_map.1 hj
  exact h x

theorem Plain.word {n : Nat} (v : UInt64) : Plain n (.number v.toNat) := .number v.toNat_lt

theorem Plain.byte {n : Nat} (v : UInt8) : Plain n (.number v.toNat) :=
  .number (lt_trans v.toNat_lt (by decide))

theorem sorted_of_names {members : List (String × Json)} (names : List String)
    (h : members.map Prod.fst = names) (hs : names.Pairwise (· < ·)) :
    members.Pairwise (·.1 < ·.1) :=
  List.pairwise_map.1 (h ▸ hs)

end Json

namespace Json.Reader

theorem word_natural (v : UInt64) : word (.number (.natural v.toNat)) = .ok v := by
  have hv : v.toNat < UInt64.size := v.toNat_lt
  simp [word, natural, hv, Except.map]

theorem byte_natural (v : UInt8) : byte (.number (.natural v.toNat)) = .ok v := by
  have hv : v.toNat < 256 := v.toNat_lt
  simp [byte, natural, hv, Except.map]

section Lists

variable {α : Type} {reader : Reader α} {write : α → Json}

theorem each_documents {xs : List α} (h : ∀ x ∈ xs, reader (write x).document = .ok x) :
    each reader (documents (xs.map write)) = .ok xs := by
  induction xs with
  | nil => rfl
  | cons x xs ih =>
    rw [List.map_cons, documents, each, h x (by simp), ih fun y hy => h y (List.mem_cons_of_mem x hy)]
    rfl

theorem list_ofList_of_mem {xs : List α} (h : ∀ x ∈ xs, reader (write x).document = .ok x) :
    list reader (ofList write xs).document = .ok xs := by
  rw [ofList, document, list, each_documents h]
  rfl

theorem list_ofList (h : ∀ x, reader (write x).document = .ok x) (xs : List α) :
    list reader (ofList write xs).document = .ok xs := list_ofList_of_mem fun x _ => h x

theorem vector_ofList {n : Nat} (h : ∀ x, reader (write x).document = .ok x) (xs : Vector α n) :
    vector n reader (ofList write xs.toList).document = .ok xs := by
  rw [vector, list_ofList h]
  change (if h : xs.toList.length = n then _ else _) = _
  rw [dif_pos xs.length_toList]
  rfl

end Lists

end Json.Reader

open Json.Reader

namespace Flags

theorem sorted_toJson (f : Flags) : f.toJson.sorted =
    .object [("auxiliary", ofOption .bool f.auxiliary), ("carry", ofOption .bool f.carry),
      ("direction", ofOption .bool f.direction), ("interrupt", ofOption .bool f.interrupt),
      ("overflow", ofOption .bool f.overflow), ("parity", ofOption .bool f.parity),
      ("sign", ofOption .bool f.sign), ("zero", ofOption .bool f.zero)] := by
  have hflag (b : Option Bool) : (ofOption Json.bool b).sorted = ofOption .bool b := by
    cases b <;> rfl
  simp [toJson, memberNames, toList, sorted, sortedMembers, hflag, byName, List.mergeSort,
    List.MergeSort.Internal.splitInTwo]

theorem plain (f : Flags) {n : Nat} : Plain (n + 1) f.toJson.sorted := by
  have hflag (b : Option Bool) : Plain n (ofOption .bool b) := by
    cases b with
    | none => exact .null
    | some b => exact .bool b
  rw [sorted_toJson]
  refine .object (sorted_of_names ["auxiliary", "carry", "direction", "interrupt", "overflow",
    "parity", "sign", "zero"] rfl (by decide)) ?_
  simp [hflag]

theorem reader_document (surplus : Refusal) (f : Flags) :
    reader surplus f.toJson.sorted.document = .ok f := by
  have hflag (b : Option Bool) : option bool (ofOption .bool b).document = .ok b := by
    cases b <;> rfl
  rw [sorted_toJson]
  simp [document, namedDocuments, reader, record, fillNamed, memberNames, field, Field.of, hflag,
    ofDraft, Document.closed, Except.map, pure, Except.pure, bind, Except.bind, List.lookup_cons]

end Flags

namespace Segment

theorem sorted_toJson (s : Segment) : s.toJson.sorted =
    .object [("end", .number s.stop.toNat), ("name", .text s.name),
      ("start", .number s.start.toNat)] := by
  simp [toJson, sorted, sortedMembers, byName, List.mergeSort, List.MergeSort.Internal.splitInTwo]

theorem plain (s : Segment) {n : Nat} : Plain (n + 1) s.toJson.sorted := by
  rw [sorted_toJson]
  refine .object (sorted_of_names ["end", "name", "start"] rfl (by decide)) ?_
  simp [Plain.word, Plain.text]

theorem reader_document (s : Segment) : reader s.toJson.sorted.document = .ok s := by
  rw [sorted_toJson]
  simp [document, namedDocuments, reader, record, fillNamed, fields, Field.of, Reader.text,
    word_natural, Document.closed, Except.map, required, pure, Except.pure, bind, Except.bind]

end Segment

namespace RegisterFile

theorem sorted_toJson (f : RegisterFile) : f.toJson.sorted = f.toJson := by
  simp [toJson, sorted, sortedMembers, sorted_ofList, byName, List.mergeSort,
    List.MergeSort.Internal.splitInTwo]

theorem plain (f : RegisterFile) : Plain 3 f.toJson.sorted := by
  rw [sorted_toJson, toJson]
  refine .object (sorted_of_names ["slots", "sse"] rfl (by decide)) ?_
  simp [Plain.ofList, Plain.word, Plain.byte]

theorem reader_document (f : RegisterFile) : reader f.toJson.sorted.document = .ok f := by
  have hslots : vector 32 word (ofList (fun v => .number v.toNat) f.slots.toList).document =
      .ok f.slots := vector_ofList word_natural _
  have hvectors : vector 16 (vector 32 byte) (ofList (fun bytes : Vector UInt8 32 =>
      ofList (fun b => .number b.toNat) bytes.toList) f.vectors.toList).document = .ok f.vectors :=
    vector_ofList (fun v => vector_ofList byte_natural v) _
  rw [sorted_toJson, toJson]
  simp [document, namedDocuments, reader, record, fillNamed, fields, Field.of, hslots, hvectors,
    Document.closed, Except.map, required, pure, Except.pure, bind, Except.bind]

end RegisterFile

namespace Memory

def cellJson (cell : UInt64 × UInt8) : String × Json :=
  (toString cell.1.toNat, .number cell.2.toNat)

theorem readAddress_toString (a : UInt64) : readAddress (toString a.toNat) = .ok a := by
  have hread : Json.Number.read (Nat.toDigits 10 a.toNat ++ []) = _ :=
    Json.Number.read_toDigits a.toNat_lt (by simp [Json.Number.Stops])
  obtain ⟨c, cs, hc⟩ := List.exists_cons_of_ne_nil (Nat.toDigits_ne_nil (b := 10) (n := a.toNat))
  have hdigit : Json.Number.isDigit c = true :=
    Json.Number.isDigit_toDigits (n := a.toNat) (by rw [hc]; simp)
  have hname : (toString a.toNat).toList = c :: cs := by
    rw [← hc]
    exact String.toList_ofList
  rw [List.append_nil, hc] at hread
  unfold readAddress
  rw [hname]
  dsimp only
  rw [if_pos (.inr hdigit), hread]
  change (if UInt64.size ≤ a.toNat then _ else _) = _
  rw [if_neg (not_le.2 a.toNat_lt)]
  change Except.ok (UInt64.ofNat a.toNat) = _
  rw [UInt64.ofNat_toNat]

theorem toString_injective {a b : UInt64} (h : toString a.toNat = toString b.toNat) : a = b := by
  have hread := readAddress_toString a
  rw [h, readAddress_toString b] at hread
  exact (Except.ok.inj hread).symm

theorem fillCells_cells (cells : Std.ExtTreeMap UInt64 UInt8) (written : List (UInt64 × UInt8)) :
    fillCells cells (namedDocuments (written.map cellJson)) = .ok (cells.insertMany written) := by
  induction written generalizing cells with
  | nil =>
    rw [Std.ExtTreeMap.insertMany_nil]
    rfl
  | cons cell written ih =>
    rw [List.map_cons, cellJson, namedDocuments, fillCells]
    change (readAddress _ >>= fun a => _) = _
    rw [readAddress_toString]
    change (byte _ >>= fun b => _) = _
    rw [document, byte_natural, Std.ExtTreeMap.insertMany_cons]
    exact ih _

theorem distinct_of_perm {cells : Std.ExtTreeMap UInt64 UInt8} {written : List (UInt64 × UInt8)}
    (h : written.Perm cells.toList) : written.Pairwise fun a b => ¬ compare a.1 b.1 = .eq :=
  (h.pairwise_iff fun hab hba => hab (Std.OrientedCmp.eq_comm.1 hba)).2
    Std.ExtTreeMap.distinct_keys_toList

/-- Cells written in any order make the same map. -/
theorem ofList_of_perm {cells : Std.ExtTreeMap UInt64 UInt8} {written : List (UInt64 × UInt8)}
    (h : written.Perm cells.toList) : Std.ExtTreeMap.ofList written compare = cells := by
  refine Std.ExtTreeMap.ext_getElem? fun a => ?_
  cases ha : cells[a]? with
  | some b =>
    have hmem := h.mem_iff.2 (Std.ExtTreeMap.mem_toList_iff_getElem?_eq_some.2 ha)
    exact Std.ExtTreeMap.getElem?_ofList_of_mem Std.ReflCmp.compare_self (distinct_of_perm h) hmem
  | none =>
    have hkeys := h.map Prod.fst
    rw [Std.ExtTreeMap.map_fst_toList_eq_keys] at hkeys
    refine Std.ExtTreeMap.getElem?_ofList_of_contains_eq_false ?_
    rw [List.contains_eq_mem, decide_eq_false_iff_not, hkeys.mem_iff, Std.ExtTreeMap.mem_keys,
      ← Std.ExtTreeMap.contains_iff_mem, Std.ExtTreeMap.contains_eq_isSome_getElem?, ha]
    simp

def written (m : Memory) : List (UInt64 × UInt8) :=
  m.cells.toList.mergeSort fun a b => decide ((cellJson a).1 ≤ (cellJson b).1)

theorem map_written (m : Memory) :
    m.written.map cellJson = byName (m.cells.toList.map cellJson) :=
  List.map_mergeSort fun _ _ _ _ => rfl

theorem written_perm (m : Memory) : m.written.Perm m.cells.toList := List.mergeSort_perm _ _

/-- No two cells have one name. -/
theorem written_sorted (m : Memory) : (m.written.map cellJson).Pairwise (·.1 < ·.1) := by
  have hsorted := byName_sorted (m.cells.toList.map cellJson)
  rw [← map_written] at hsorted
  have hle := List.pairwise_map.1 hsorted
  rw [List.pairwise_map]
  refine (hle.and (distinct_of_perm m.written_perm)).imp fun {a b} ⟨hle, hne⟩ => ?_
  refine String.not_le.1 fun hge => hne ?_
  have hname : (cellJson a).1 = (cellJson b).1 := String.le_antisymm hle hge
  rw [Std.LawfulEqCmp.compare_eq_iff_eq]
  exact toString_injective hname

theorem sorted_cellsJson (m : Memory) : m.cellsJson.sorted = .object (m.written.map cellJson) := by
  have hcells : sortedMembers (m.cells.toList.map cellJson) = m.cells.toList.map cellJson := by
    rw [sortedMembers_eq_map, List.map_map]
    rfl
  change Json.object (byName (sortedMembers (m.cells.toList.map cellJson))) = _
  rw [hcells, map_written]

theorem cellsReader_document (m : Memory) :
    cellsReader m.cellsJson.sorted.document = .ok m.cells := by
  rw [sorted_cellsJson, document, cellsReader, fillCells_cells]
  change Except.ok _ = _
  rw [← Std.ExtTreeMap.ofList_eq_insertMany_empty, ofList_of_perm m.written_perm]

theorem sorted_toJson (m : Memory) : m.toJson.sorted =
    .object [("cells", m.cellsJson.sorted), ("end", .number m.codeEnd.toNat),
      ("segments", ofList (fun s => s.toJson.sorted) m.segments), ("strict", .bool m.strict)] := by
  simp [toJson, sorted, sortedMembers, sorted_ofList, byName, List.mergeSort,
    List.MergeSort.Internal.splitInTwo]

theorem plain (m : Memory) : Plain 3 m.toJson.sorted := by
  have hcells : Plain 2 (.object (m.written.map cellJson)) := by
    refine .object m.written_sorted fun c hc => ?_
    obtain ⟨cell, -, rfl⟩ := List.mem_map.1 hc
    exact Plain.byte cell.2
  rw [sorted_toJson, sorted_cellsJson]
  refine .object (sorted_of_names ["cells", "end", "segments", "strict"] rfl (by decide)) ?_
  simp [hcells, Plain.ofList, Plain.word, Segment.plain, Plain.bool]

theorem reader_document (m : Memory) : reader m.toJson.sorted.document = .ok m := by
  have hcells := cellsReader_document m
  have hsegments := list_ofList Segment.reader_document m.segments
  rw [sorted_toJson]
  simp [document, namedDocuments, reader, record, fillNamed, fields, Field.of, hcells, hsegments,
    word_natural, Reader.bool, Document.closed, Except.map, required, pure, Except.pure, bind,
    Except.bind]

end Memory

namespace Machine

theorem saved_eq (m : Machine) : m.saved =
    .object [("breakpoints", ofList (fun a => .number a.toNat) m.breakpoints.toList),
      ("flags", m.flags.toJson.sorted), ("instruction_pointer", .number m.ip.toNat),
      ("memory", m.memory.toJson.sorted), ("registers", m.registers.toJson.sorted)] := by
  simp [saved, toJson, sorted, sortedMembers, sorted_ofList, byName, List.mergeSort,
    List.MergeSort.Internal.splitInTwo]

/-- A saved machine has at most four brackets one inside the other. -/
theorem saved_plain (m : Machine) : Plain 4 m.saved := by
  rw [saved_eq]
  refine .object (sorted_of_names ["breakpoints", "flags", "instruction_pointer", "memory",
    "registers"] rfl (by decide)) ?_
  simp [Plain.ofList, Plain.word, Flags.plain, Memory.plain, RegisterFile.plain]

theorem ofList_toList (s : Std.ExtTreeSet UInt64) : Std.ExtTreeSet.ofList s.toList compare = s :=
  Std.ExtTreeSet.ext_mem fun a => by
    rw [Std.ExtTreeSet.mem_ofList, List.contains_eq_mem, decide_eq_true_eq,
      Std.ExtTreeSet.mem_toList]

theorem reader_saved (m : Machine) : reader m.saved.document = .ok m := by
  have hflags := Flags.reader_document .mismatch m.flags
  have hmemory := Memory.reader_document m.memory
  have hregisters := RegisterFile.reader_document m.registers
  have hbreakpoints : Reader.list word
      (ofList (fun a : UInt64 => .number a.toNat) m.breakpoints.toList).document = .ok _ :=
    list_ofList word_natural _
  rw [saved_eq]
  simp [document, namedDocuments, reader, record, fillNamed, fields, Field.of, hflags, hmemory,
    hregisters, hbreakpoints, ofList_toList, word_natural, Document.closed, Except.map, required,
    pure, Except.pure, bind, Except.bind]

/-- What is found in a text is what was saved in it. -/
theorem inspect_saved (m : Machine) :
    (m.saved.document.inspect 0 *> pure m.saved.document.canonical : Except Refusal Document) =
      .ok m.saved.document := by
  rw [m.saved_plain.shallow.inspect (by decide), m.saved_plain.canonical]
  rfl

theorem parse_compact (m : Machine) : parse m.saved.compact = .ok m.saved.document := by
  rw [parse, readText_compact m.saved_plain.shallow, inspect_saved]

theorem parse_pretty (m : Machine) : parse m.saved.pretty = .ok m.saved.document := by
  rw [parse, readText_pretty m.saved_plain.shallow, inspect_saved]

end Machine

end LongMode

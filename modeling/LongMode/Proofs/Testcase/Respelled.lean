import LongMode.Proofs.Json.Respelled
import LongMode.Proofs.Json.Whole
import LongMode.Proofs.Testcase.Saved
import LongMode.Proofs.Text.Numeral
/-!
Testcases and their JSON form. A testcase that could pass survives being written and read, and a
testcase that is read does not depend on whether its words are spelled as numbers or as texts.
-/

namespace LongMode

open Json Json.Reader

theorem readWord_agrees (depth : Nat) : (readWord depth).Agrees .word := by
  intro v s d e hv h
  cases h with
  | word =>
    rw [readWord_natural, readWord]
    change _ = (Numeral.readWord _).mapError _
    rw [hv]
    rfl

theorem readWord_careful (depth : Nat) : (readWord depth).Careful := by
  intro d v h
  obtain ⟨_, -, h⟩ := ok_of_bind h
  split at h
  · rfl
  · exact word_careful d v h

theorem Code.reader_careful (depth : Nat) : (Code.reader depth).Careful := by
  intro d c h
  obtain ⟨_, -, h⟩ := ok_of_bind h
  split at h
  · rfl
  · exact map_careful (list_careful byte_careful) Code.bytes d c h

namespace MemoryExpectation

def places : Places := .fields [("address", .word), ("bytes", .nowhere)]

theorem reader_agrees : reader.Agrees places := by
  intro v s d e hv h
  have hfields : List.Forall₂ Minds [("address", .word), ("bytes", .nowhere)] fields :=
    .cons (.of (readWord_agrees 5)) (.cons (.of (nowhere_agrees _)) .nil)
  rw [reader, reader, record_agrees hfields {} v s d e hv h]

theorem reader_careful : reader.Careful := by
  intro d x h
  obtain ⟨s, hs, -⟩ := ok_of_bind h
  refine record_careful ?_ {} d s hs
  simp only [fields, List.forall_mem_cons]
  exact ⟨fun s => map_careful (readWord_careful 5) _, fun s => map_careful (Code.reader_careful 5) _,
    by simp⟩

end MemoryExpectation

theorem Flags.reader_careful (surplus : Refusal) : (Flags.reader surplus).Careful := by
  intro d f h
  obtain ⟨s, hs, -⟩ := ok_of_bind h
  refine record_careful ?_ [] d s hs
  intro f hf s
  obtain ⟨name, -, rfl⟩ := List.mem_map.1 hf
  exact map_careful (option_careful bool_careful) _

namespace Checkpoint

def places : Places :=
  .fields [("address", .word), ("registers", .members .word),
    ("memory", .items MemoryExpectation.places), ("flags", .nowhere)]

theorem registersReader_agrees : registersReader.Agrees (.members .word) := by
  intro v s d e hv h
  rw [registersReader, registersReader, members_agrees (readWord_agrees 4) v s d e hv h]

theorem registersReader_careful : registersReader.Careful := by
  intro d registers h
  obtain ⟨members, hmembers, -⟩ := ok_of_bind h
  exact members_careful (readWord_careful 4) d members hmembers

theorem reader_agrees : reader.Agrees places := by
  intro v s d e hv h
  have hfields : List.Forall₂ Minds [("address", .word), ("registers", .members .word),
      ("memory", .items MemoryExpectation.places), ("flags", .nowhere)] fields :=
    .cons (.of (readWord_agrees 3)) (.cons (.of registersReader_agrees)
      (.cons (.of (list_agrees MemoryExpectation.reader_agrees))
        (.cons (.of (nowhere_agrees _)) .nil)))
  rw [reader, reader, record_agrees hfields {} v s d e hv h]

theorem reader_careful : reader.Careful := by
  intro d x h
  obtain ⟨s, hs, -⟩ := ok_of_bind h
  refine record_careful ?_ {} d s hs
  simp only [fields, List.forall_mem_cons]
  exact ⟨fun s => map_careful (readWord_careful 3) _, fun s => map_careful registersReader_careful _,
    fun s => map_careful (list_careful MemoryExpectation.reader_careful) _,
    fun s => map_careful (Flags.reader_careful .malformed) _, by simp⟩

end Checkpoint

namespace Testcase

/-- Where words stand in a testcase: at the addresses and the register values. -/
def places : Places :=
  .fields [("name", .nowhere), ("code", .nowhere), ("checkpoints", .items Checkpoint.places)]

theorem reader_agrees : reader.Agrees places := by
  intro v s d e hv h
  have hfields : List.Forall₂ Minds [("name", .nowhere), ("code", .nowhere),
      ("checkpoints", .items Checkpoint.places)] fields :=
    .cons (.of (nowhere_agrees _)) (.cons (.of (nowhere_agrees _))
      (.cons (.of (list_agrees Checkpoint.reader_agrees)) .nil))
  rw [reader, reader, record_agrees hfields {} v s d e hv h]

theorem reader_careful : reader.Careful := by
  intro d x h
  obtain ⟨s, hs, -⟩ := ok_of_bind h
  refine record_careful ?_ {} d s hs
  simp only [fields, List.forall_mem_cons]
  exact ⟨fun s => map_careful text_careful _, fun s => map_careful (Code.reader_careful 1) _,
    fun s => map_careful (list_careful Checkpoint.reader_careful) _, by simp⟩

theorem ofText_eq {text : String} {d : Document} (h : Holds text d) :
    ofText text = ((reader d).mapError .refused >>= fun t => t.validate >>= fun _ => .ok t) := by
  rw [ofText, h.readText]
  rfl

/-- What is read from a text is a testcase that could pass, and the text is one document. -/
theorem read_of_ofText {text : String} {t : Testcase} (h : ofText text = .ok t) :
    t.validate = .ok () ∧ t.Ordered ∧ ∃ d, Holds text d := by
  obtain ⟨found, hfound, h⟩ := ok_of_bind h
  obtain ⟨_, hvalid, h⟩ := ok_of_bind h
  cases h
  cases hread : Document.readText reader text.toList with
  | error r =>
    rw [hread] at hfound
    cases hfound
  | ok t =>
    rw [hread] at hfound
    cases hfound
    obtain ⟨d, hd, hreader⟩ := reader_careful.holds hread
    exact ⟨hvalid, ordered_of_reader hreader, d, hd⟩

theorem ofText_print {t : Testcase} (hvalid : t.validate = .ok ()) (ht : t.Ordered)
    {print : Json → String} (hprint : print ∈ [Json.compact, Json.pretty]) :
    ofText (print t.toJson) = .ok t := by
  rw [ofText_eq (t.shallow.holds hprint), reader_document ht]
  change (t.validate >>= fun _ => Except.ok t) = _
  rw [hvalid]
  rfl

/-- A testcase and its JSON form. -/
structure SurvivesJson (t : Testcase) : Prop where
  /-- A testcase that could pass is read back from what is written. -/
  written : t.validate = .ok () → t.Ordered → ∀ print ∈ [Json.compact, Json.pretty],
    ofText (print t.toJson) = .ok t
  /-- What is read could pass, and the text is one document. -/
  read : ∀ text, ofText text = .ok t → t.validate = .ok () ∧ t.Ordered ∧ ∃ d, Holds text d
  /-- With the digits of an address or a register value replaced by a text that spells the number, the
  text holds the document with that number replaced, and every text that holds it is read as the same
  testcase. -/
  respelled : ∀ text d, ofText text = .ok t → Holds text d → ∀ v s e,
    Numeral.Spells v s.toList → Respells v.toNat s places d e →
      (∃ before after text', text.toList = before ++ (Nat.toDigits 10 v.toNat ++ after) ∧
        text'.toList = before ++ (quoted s ++ after) ∧ Holds text' e) ∧
      ∀ text', Holds text' e → ofText text' = .ok t

/-- Every testcase that could pass survives being written, and no spelling of its words matters. -/
theorem survivesJson (t : Testcase) : t.SurvivesJson where
  written hvalid ht _ hprint := ofText_print hvalid ht hprint
  read _ h := read_of_ofText h
  respelled text d htext hd v s e hs he := by
    refine ⟨hd.requoted he.quotes, fun text' htext' => ?_⟩
    rw [← htext, ofText_eq hd, ofText_eq htext',
      reader_agrees v s d e (Numeral.readWord_of_spells hs) he]

def nopCase : Testcase where
  name := "nop"
  code := .bytes [0x90]
  checkpoints := [{ address := 0x1001, registers := [("RAX", 12)], memory := [], flags := .undefined }]

/-- For instance with the value of the register in hexadecimal. -/
theorem nopCase_survivesJson :
    ofText (Json.compact nopCase.toJson) = .ok nopCase ∧
      ∃ before after text', (Json.compact nopCase.toJson).toList = before ++ ("12".toList ++ after) ∧
        text'.toList = before ++ ("\"0x0C\"".toList ++ after) ∧ ofText text' = .ok nopCase := by
  have hvalid : nopCase.validate = .ok () := rfl
  have hordered : nopCase.Ordered := by simp [Ordered, Checkpoint.Ordered, nopCase]
  have hcompact : Json.compact ∈ [Json.compact, Json.pretty] := by simp
  have hwritten := (survivesJson nopCase).written hvalid hordered Json.compact hcompact
  refine ⟨hwritten, ?_⟩
  have hspells : Numeral.Spells 12 "0x0C".toList := .hex (.inl rfl) 1 rfl
  -- the register is a member of the second field of the only item of the third field
  have hrespells : Respells 12 "0x0C" places nopCase.toJson.document _ :=
    .named rfl (.item (.named rfl (.member .word (.ok "RAX") [] [] none) [_] [_, _] none) [] [] none)
      [_, _] [] none
  obtain ⟨⟨before, after, text', hbefore, hafter, hholds⟩, hread⟩ :=
    (survivesJson nopCase).respelled _ _ hwritten (nopCase.shallow.holds hcompact) 12 "0x0C" _
      hspells hrespells
  exact ⟨before, after, text', hbefore, hafter, hread text' hholds⟩

end Testcase

end LongMode

import LongMode.Instruction.Text
import LongMode.Line
import Mathlib.Tactic
/-!
The text of a line begins with its mnemonic, and no mnemonic begins the text that stands for bytes
that encode no instruction. So that text is not the text of an instruction.
-/

namespace LongMode

theorem Line.mnemonic_prefix_text {line : Line} {mnemonic : String} {operands : List String}
    (h : line.tokens = mnemonic :: operands) : mnemonic.toList <+: line.text.toList := by
  unfold Line.text
  rw [h]
  rcases operands with _ | ⟨operand, rest⟩
  · exact List.prefix_refl _
  · simp only [String.toList_append, List.append_assoc]
    exact List.prefix_append _ _

/-- The mnemonic is not what the text for bytes without an instruction begins with. -/
def Telling (mnemonic : String) : Prop := ¬ mnemonic.toList <+: "BAD INSTRUCTION".toList

instance (mnemonic : String) : Decidable (Telling mnemonic) :=
  inferInstanceAs (Decidable (¬ _))

/-- The first letter can tell by itself, whatever the mnemonic goes on with. -/
theorem Telling.append {first : String} (rest : String) (hne : first.toList ≠ [])
    (h : first.toList.head? ≠ some 'B') : Telling (first ++ rest) := by
  unfold Telling
  rw [String.toList_append]
  rcases hf : first.toList with _ | ⟨c, cs⟩
  · exact absurd hf hne
  · rw [hf] at h
    have hc : c ≠ 'B' := by simpa using h
    have hbad : "BAD INSTRUCTION".toList = 'B' :: "AD INSTRUCTION".toList := by decide
    rw [hbad, List.cons_append, List.cons_prefix_cons]
    exact fun hp => hc hp.1

theorem StringOp.telling_mnemonic (op : StringOp) : Telling op.mnemonic := by
  unfold StringOp.mnemonic
  rw [String.append_assoc]
  rcases op.repetition with _ | (_ | _ | _) <;> dsimp only
  · rw [String.empty_append]
    apply Telling.append <;> cases op.kind <;> decide
  · exact .append _ (by decide) (by decide)
  · exact .append _ (by decide) (by decide)
  · split_ifs <;> exact .append _ (by decide) (by decide)

/-- Every instruction has a mnemonic, by which it is told from bytes that encode none. -/
theorem Instruction.tokens_telling (i : Instruction) :
    ∃ mnemonic operands, i.tokens = mnemonic :: operands ∧ Telling mnemonic := by
  cases i with
  | binary op dst src => exact ⟨_, _, rfl, by cases op <;> decide⟩
  | unary op target => exact ⟨_, _, rfl, by cases op <;> decide⟩
  | multiply signed source => exact ⟨_, _, rfl, by cases signed <;> decide⟩
  | divide signed source => exact ⟨_, _, rfl, by cases signed <;> decide⟩
  | moveExtend signed dst src => exact ⟨_, _, rfl, by split_ifs <;> decide⟩
  | moveIf cond dst src => exact ⟨_, _, rfl, .append _ (by decide) (by decide)⟩
  | setIf cond dst => exact ⟨_, _, rfl, .append _ (by decide) (by decide)⟩
  | widenAccumulator w => cases w <;> exact ⟨_, _, rfl, by decide⟩
  | spreadSign w => cases w <;> exact ⟨_, _, rfl, by decide⟩
  | pushFlags w => exact ⟨_, _, rfl, by split_ifs <;> decide⟩
  | popFlags w => exact ⟨_, _, rfl, by split_ifs <;> decide⟩
  | jump cond target =>
    refine ⟨_, _, rfl, ?_⟩
    split_ifs
    · decide
    · exact .append _ (by decide) (by decide)
  | shift op target count => exact ⟨_, _, rfl, by cases op <;> decide⟩
  | bitTest op base offset => exact ⟨_, _, rfl, by cases op <;> decide⟩
  | bitScan reverse dst src => exact ⟨_, _, rfl, by cases reverse <;> decide⟩
  | flag op => exact ⟨_, _, rfl, by cases op <;> decide⟩
  | string op => exact ⟨_, _, rfl, op.telling_mnemonic⟩
  | _ => exact ⟨_, _, rfl, by decide⟩

theorem Instruction.tokens_ne_nil (i : Instruction) : i.tokens ≠ [] := by
  obtain ⟨mnemonic, operands, h, -⟩ := i.tokens_telling
  simp [h]

/-- The text of a line with the tokens of an instruction is that of an instruction. -/
theorem Line.text_ne_bad {line : Line} {i : Instruction} (h : line.tokens = i.tokens) :
    line.text ≠ "BAD INSTRUCTION" := by
  obtain ⟨mnemonic, operands, htokens, htelling⟩ := i.tokens_telling
  intro htext
  apply htelling
  rw [← htext]
  exact mnemonic_prefix_text (h.trans htokens)

end LongMode

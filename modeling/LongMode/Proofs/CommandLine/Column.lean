import LongMode.CommandLine.Program
import LongMode.Proofs.Instruction.Text
import LongMode.Proofs.Listing.Lines
import LongMode.Proofs.Text.Code
/-!
The byte column of a printed listing. It is read off a printed line by its place alone, and the bytes
read are those that the line was printed with: blanks end the column, and where there is no room for
them the mnemonic does, as no mnemonic looks like a byte. Lines that tile a part of a program and end
in it show exactly that part.
-/

namespace LongMode

/-- The text does not begin with two digits that stand for themselves. -/
def IsWord : List Char → Prop
  | _ :: _ :: e :: _ => e ≠ ' '
  | [c, d] => Digits.value? c = none ∨ Digits.value? d = none
  | _ => False

instance (text : List Char) : Decidable (IsWord text) := by
  unfold IsWord
  split <;> infer_instance

theorem IsWord.append {text : List Char} (h : IsWord text) (rest : List Char)
    (hlength : 3 ≤ text.length) : IsWord (text ++ rest) := by
  match text, hlength with
  | c :: d :: e :: tail, _ => exact h

theorem StringOp.isWord_mnemonic (op : StringOp) : IsWord op.mnemonic.toList := by
  have hkind : IsWord op.kind.mnemonic.toList ∧ 3 ≤ op.kind.mnemonic.toList.length := by
    cases op.kind <;> decide
  unfold StringOp.mnemonic
  simp only [String.toList_append, List.append_assoc]
  rcases op.repetition with _ | (_ | _ | _) <;> dsimp only
  · exact hkind.1.append _ hkind.2
  · exact IsWord.append (by decide) _ (by decide)
  · exact IsWord.append (by decide) _ (by decide)
  · split_ifs <;> exact IsWord.append (by decide) _ (by decide)

/-- The mnemonic of an instruction is a word. -/
theorem Instruction.tokens_word (i : Instruction) :
    ∃ mnemonic operands, i.tokens = mnemonic :: operands ∧ IsWord mnemonic.toList := by
  cases i with
  | binary op dst src => exact ⟨_, _, rfl, by cases op <;> decide⟩
  | unary op target => exact ⟨_, _, rfl, by cases op <;> decide⟩
  | multiply signed source => exact ⟨_, _, rfl, by cases signed <;> decide⟩
  | divide signed source => exact ⟨_, _, rfl, by cases signed <;> decide⟩
  | moveExtend signed dst src => exact ⟨_, _, rfl, by split_ifs <;> decide⟩
  | moveIf cond dst src => exact ⟨_, _, rfl, by cases cond <;> decide⟩
  | setIf cond dst => exact ⟨_, _, rfl, by cases cond <;> decide⟩
  | widenAccumulator w => cases w <;> exact ⟨_, _, rfl, by decide⟩
  | spreadSign w => cases w <;> exact ⟨_, _, rfl, by decide⟩
  | pushFlags w => exact ⟨_, _, rfl, by split_ifs <;> decide⟩
  | popFlags w => exact ⟨_, _, rfl, by split_ifs <;> decide⟩
  | jump cond target => exact ⟨_, _, rfl, by cases cond <;> decide⟩
  | shift op target count => exact ⟨_, _, rfl, by cases op <;> decide⟩
  | bitTest op base offset => exact ⟨_, _, rfl, by cases op <;> decide⟩
  | bitScan reverse dst src => exact ⟨_, _, rfl, by cases reverse <;> decide⟩
  | flag op => exact ⟨_, _, rfl, by cases op <;> decide⟩
  | string op => exact ⟨_, _, rfl, op.isWord_mnemonic⟩
  | _ => exact ⟨_, _, rfl, by decide⟩

/-- A line of a listing begins with a word. -/
theorem Machine.lineFor_word (m : Machine) (l : Located) :
    ∃ word rest, (m.lineFor l).text.toList = word ++ rest ∧ IsWord word := by
  have htokens : ∃ mnemonic operands, (m.lineFor l).tokens = mnemonic :: operands ∧
      IsWord mnemonic.toList := by
    unfold lineFor
    cases l.instruction with
    | some i => exact i.tokens_word
    | none => exact ⟨_, _, rfl, by decide⟩
  obtain ⟨mnemonic, operands, hcons, hword⟩ := htokens
  obtain ⟨rest, hrest⟩ := Line.mnemonic_prefix_text hcons
  exact ⟨_, rest, hrest.symm, hword⟩

namespace CommandLine

/-- The bytes that a text begins with, each written as two digits with a blank behind them. -/
def leadingBytes : List Char → List UInt8
  | high :: low :: ' ' :: rest =>
    match Digits.value? high, Digits.value? low with
    | some h, some l => UInt8.ofNat (16 * h + l) :: leadingBytes rest
    | _, _ => []
  | _ => []

/-- The byte column of a printed line: behind the address, a colon and a mark. -/
def byteColumn (printed : String) : List UInt8 :=
  leadingBytes ((printed.toList.dropWhile (· != ':')).drop 2)

theorem leadingBytes_blank (rest : List Char) : leadingBytes (' ' :: rest) = [] := by
  unfold leadingBytes
  split
  · next heq =>
    cases heq
    rfl
  · rfl

theorem leadingBytes_word {word : List Char} (h : IsWord word) (rest : List Char) :
    leadingBytes (word ++ rest) = [] := by
  unfold leadingBytes
  split
  · next high low tail heq =>
    match word, h with
    | c :: d :: e :: more, h =>
      cases heq
      exact absurd rfl h
    | [c, d], h =>
      cases heq
      rcases h with hhigh | hlow
      · rw [hhigh]
      · rw [hlow]
        cases Digits.value? high <;> rfl
  · rfl

theorem leadingBytes_byteHex (b : UInt8) (rest : List Char) :
    leadingBytes ((Digits.byteHex b).toList ++ ' ' :: rest) = b :: leadingBytes rest := by
  obtain ⟨high, low, htext, hpair⟩ := Numeral.bytePair_byteDigits true b
  have htext : (Digits.byteHex b).toList = [high, low] := String.toList_ofList.trans htext
  rw [htext]
  change leadingBytes (high :: low :: ' ' :: rest) = _
  cases hpair with
  | digits hhigh hlow =>
    rw [leadingBytes, ((Digits.isDigit_iff le_rfl).1 hhigh).1, ((Digits.isDigit_iff le_rfl).1 hlow).1]
  | signed hplus => cases hplus

/-- A column of bytes with a blank behind it. -/
theorem leadingBytes_column {bytes : List UInt8} (hne : bytes ≠ []) (rest : List Char) :
    leadingBytes ((" ".intercalate (bytes.map Digits.byteHex)).toList ++ ' ' :: rest) =
      bytes ++ leadingBytes rest := by
  rw [String.toList_intercalate]
  induction bytes with
  | nil => exact absurd rfl hne
  | cons b others ih =>
    cases others with
    | nil => simpa using leadingBytes_byteHex b rest
    | cons c more =>
      rw [List.map_cons, List.map_cons, List.map_cons, List.map_cons, List.intercalate_cons_cons]
      have htail := ih (List.cons_ne_nil c more)
      rw [List.map_cons, List.map_cons] at htail
      change leadingBytes (((Digits.byteHex b).toList ++ [' '] ++ _) ++ ' ' :: rest) = _
      rw [List.append_assoc, List.append_assoc]
      change leadingBytes ((Digits.byteHex b).toList ++ ' ' :: (_ ++ ' ' :: rest)) = _
      rw [leadingBytes_byteHex]
      exact congrArg (b :: ·) htail

/-! A printed line. -/

theorem leadingBytes_replicate {rest : List Char} (h : leadingBytes rest = []) (blanks : Nat) :
    leadingBytes (List.replicate blanks ' ' ++ rest) = [] := by
  cases blanks with
  | zero => exact h
  | succ blanks =>
    rw [List.replicate_succ, List.cons_append]
    exact leadingBytes_blank _

/-- A column of bytes that is moved to the left, in front of a word. -/
theorem leadingBytes_leftAligned (bytes : List UInt8) {rest : List Char}
    (hrest : leadingBytes rest = []) :
    leadingBytes ((Program.leftAligned 30 (" ".intercalate (bytes.map Digits.byteHex))).toList ++
      ' ' :: rest) = bytes := by
  unfold Program.leftAligned
  set column := " ".intercalate (bytes.map Digits.byteHex) with hcolumn
  -- of all the blanks behind the column, the first one ends it
  have hblanks : List.replicate (30 - column.length) ' ' ++ ' ' :: rest =
      ' ' :: (List.replicate (30 - column.length) ' ' ++ rest) := by
    rw [List.append_cons, ← List.replicate_succ', List.replicate_succ]
    rfl
  rw [String.toList_append, String.toList_ofList, List.append_assoc, hblanks]
  by_cases hnone : bytes = []
  · have hempty : column.toList = [] := by
      rw [hcolumn, hnone]
      rfl
    rw [hempty, hnone]
    exact leadingBytes_blank _
  · rw [hcolumn, leadingBytes_column hnone, leadingBytes_replicate hrest, List.append_nil]

/-- Among the digits of an address there is no colon. -/
theorem mark_not_mem_digits (n : Nat) : ':' ∉ Digits.padded 8 (Digits.upperHex n) := by
  have hdigits : Digits.continue? 16 0 (Digits.padded 8 (Digits.upperHex n)) = some n := by
    have hupper : Digits.padded 8 (Digits.upperHex n) =
        (Digits.padded 8 (Digits.lowerHex n)).map Char.toUpper := by
      simp [Digits.padded, Digits.upperHex, Digits.lowerHex]
    rw [hupper, Digits.continue?_map Digits.value?_toUpper]
    exact Numeral.continue?_padded (by decide) le_rfl _ n
  intro hmem
  exact absurd (Digits.value?_of_continue? hdigits ':' hmem) (by decide)

theorem byteColumn_lineText (code : List UInt8) (origin : UInt64) {line : Line}
    {word rest : List Char} (htext : line.text.toList = word ++ rest) (hword : IsWord word) :
    byteColumn (Program.lineText code origin line) = Program.lineBytes code origin line := by
  unfold byteColumn Program.lineText
  dsimp only
  set mark := if line.info.contains .invalid then "!" else " " with hmark
  obtain ⟨c, hc⟩ : ∃ c, mark.toList = [c] := by
    rw [hmark]
    split_ifs
    · exact ⟨_, rfl⟩
    · exact ⟨_, rfl⟩
  simp only [String.toList_append, String.toList_ofList, List.append_assoc, hc, htext]
  have hcolon : ":".toList = [':'] := rfl
  have hblank : " ".toList = [' '] := rfl
  rw [hcolon, hblank, List.dropWhile_append_of_pos ?_]
  · exact leadingBytes_leftAligned _ (leadingBytes_word hword rest)
  · intro digit hdigit
    rw [bne_iff_ne]
    rintro rfl
    exact mark_not_mem_digits _ hdigit

/-! Lines one behind the other. -/

section Tiles

open Listing

variable {code : List UInt8} {origin a b : UInt64} {line : Line} {lines : List Line}

theorem toNat_length_of_lt (h : line.address < line.stop) :
    line.address.toNat + line.length.toNat = line.stop.toNat := by
  have hlength : line.length = line.stop - line.address := by
    rw [Line.stop, UInt64.add_comm, UInt64.add_sub_cancel]
  have hle := UInt64.le_iff_toNat_le.1 (UInt64.le_of_lt h)
  rw [hlength, UInt64.toNat_sub_of_le _ _ (UInt64.le_of_lt h)]
  omega

/-- The lines show the part of the program that they tile. -/
theorem take_append_lineBytes (h : Tiles a lines b) (ha : origin ≤ a)
    (hb : b.toNat ≤ origin.toNat + code.length) :
    code.take (a.toNat - origin.toNat) ++ lines.flatMap (Program.lineBytes code origin) =
      code.take (b.toNat - origin.toNat) := by
  induction lines generalizing a with
  | nil =>
    cases h
    exact List.append_nil _
  | cons line rest ih =>
    obtain ⟨rfl, hlt, hrest⟩ := h
    have hle := UInt64.le_of_lt (UInt64.lt_of_le_of_lt ha hlt)
    have hstop := toNat_length_of_lt hlt
    have hend := UInt64.le_iff_toNat_le.1 hrest.le
    have hstart := UInt64.toNat_sub_of_le _ _ ha
    rw [UInt64.le_iff_toNat_le] at ha
    have hfits : line.address.toNat - origin.toNat + line.length.toNat ≤ code.length := by omega
    have hnext : line.stop.toNat - origin.toNat =
        line.address.toNat - origin.toNat + line.length.toNat := by omega
    rw [← ih hrest hle, hnext, List.take_add, List.flatMap_cons, List.append_assoc]
    congr 2
    unfold Program.lineBytes
    dsimp only
    rw [hstart, if_pos hfits]

/-- A line that passes the end of the program shows nothing. -/
theorem lineBytes_of_lt (hlt : line.address < line.stop) (ha : origin ≤ line.address)
    (hend : origin.toNat + code.length < line.stop.toNat) :
    Program.lineBytes code origin line = [] := by
  have hstop := toNat_length_of_lt hlt
  have hstart := UInt64.toNat_sub_of_le _ _ ha
  rw [UInt64.le_iff_toNat_le] at ha
  unfold Program.lineBytes
  dsimp only
  rw [hstart, if_neg (by omega)]

end Tiles

end CommandLine

end LongMode

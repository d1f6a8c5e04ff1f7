import LongMode.Proofs.Json.Local
import LongMode.Proofs.Json.Parse
/-!
Numbers that become texts. Where a number of a document becomes a text, the digits of the number in the
text of the document become that text in quotes, and nothing else is read otherwise.
-/

namespace LongMode.Json

open Document

mutual

/-- So often a number of a document becomes a text. -/
inductive Quotes (n : Nat) (s : String) : Nat → Document → Document → Prop
  | same (d : Document) : Quotes n s 0 d d
  | number : Quotes n s 1 (.number (.natural n)) (.text s)
  | array {k : Nat} {items items' : List Document} (h : QuotesItems n s k items items')
    (closing : Option Flaw) : Quotes n s k (.array items closing) (.array items' closing)
  | object {k : Nat} {members members' : List (Except Refusal String × Document)}
    (h : QuotesMembers n s k members members') (closing : Option Flaw) :
    Quotes n s k (.object members closing) (.object members' closing)

inductive QuotesItems (n : Nat) (s : String) : Nat → List Document → List Document → Prop
  | nil : QuotesItems n s 0 [] []
  | cons {j k : Nat} {d e : Document} {items items' : List Document} (h : Quotes n s j d e)
    (hs : QuotesItems n s k items items') : QuotesItems n s (j + k) (d :: items) (e :: items')

inductive QuotesMembers (n : Nat) (s : String) : Nat →
    List (Except Refusal String × Document) → List (Except Refusal String × Document) → Prop
  | nil : QuotesMembers n s 0 [] []
  | cons {j k : Nat} (name : Except Refusal String) {d e : Document}
    {members members' : List (Except Refusal String × Document)} (h : Quotes n s j d e)
    (hs : QuotesMembers n s k members members') :
    QuotesMembers n s (j + k) ((name, d) :: members) ((name, e) :: members')

end

variable {n : Nat} {s : String}

theorem QuotesItems.refl (items : List Document) : QuotesItems n s 0 items items := by
  induction items with
  | nil => exact .nil
  | cons d items ih => exact .cons (.same d) ih

theorem QuotesMembers.refl (members : List (Except Refusal String × Document)) :
    QuotesMembers n s 0 members members := by
  induction members with
  | nil => exact .nil
  | cons m members ih => exact .cons m.1 (.same m.2) ih

theorem Quotes.of_array {k : Nat} {items : List Document} {closing : Option Flaw} {e : Document}
    (h : Quotes n s k (.array items closing) e) :
    ∃ items', e = .array items' closing ∧ QuotesItems n s k items items' := by
  cases h with
  | same => exact ⟨items, rfl, .refl items⟩
  | array h => exact ⟨_, rfl, h⟩

theorem Quotes.of_object {k : Nat} {members : List (Except Refusal String × Document)}
    {closing : Option Flaw} {e : Document} (h : Quotes n s k (.object members closing) e) :
    ∃ members', e = .object members' closing ∧ QuotesMembers n s k members members' := by
  cases h with
  | same => exact ⟨members, rfl, .refl members⟩
  | object h => exact ⟨_, rfl, h⟩

/-- So often the digits of a number become a text in quotes. -/
inductive Requoted (n : Nat) (s : String) : Nat → List Char → List Char → Prop
  | nil : Requoted n s 0 [] []
  | keep {k : Nat} (c : Char) {a b : List Char} (h : Requoted n s k a b) :
    Requoted n s k (c :: a) (c :: b)
  | number {k : Nat} {a b : List Char} (h : Requoted n s k a b) :
    Requoted n s (k + 1) (Nat.toDigits 10 n ++ a) (quoted s ++ b)

namespace Requoted

variable {j k : Nat} {a b c d : List Char}

theorem refl (a : List Char) : Requoted n s 0 a a := by
  induction a with
  | nil => exact .nil
  | cons c a ih => exact .keep c ih

theorem append (h : Requoted n s j a b) (h' : Requoted n s k c d) :
    Requoted n s (j + k) (a ++ c) (b ++ d) := by
  induction h with
  | nil => simpa using h'
  | keep x _ ih => exact .keep x ih
  | @number i a b _ ih =>
    rw [List.append_assoc, List.append_assoc, Nat.add_right_comm]
    exact .number ih

/-- What is put in front stays. -/
theorem append_left (before : List Char) (h : Requoted n s k a b) :
    Requoted n s k (before ++ a) (before ++ b) := by
  induction before with
  | nil => exact h
  | cons c before ih => exact .keep c ih

theorem eq_of_zero (h : Requoted n s 0 a b) : a = b := by
  generalize hk : 0 = k at h
  induction h with
  | nil => rfl
  | keep c _ ih => rw [ih hk]
  | number => cases hk

/-- One number becomes a text. -/
theorem exists_append_of_one (h : Requoted n s 1 a b) : ∃ before after,
    a = before ++ (Nat.toDigits 10 n ++ after) ∧ b = before ++ (quoted s ++ after) := by
  generalize hk : 1 = k at h
  induction h with
  | nil => cases hk
  | keep c _ ih =>
    obtain ⟨before, after, rfl, rfl⟩ := ih hk
    exact ⟨c :: before, after, rfl, rfl⟩
  | @number i a b h _ =>
    cases hk
    exact ⟨[], a, rfl, by rw [eq_of_zero h, List.nil_append]⟩

theorem ne_nil (h : Requoted n s k a b) : a ≠ [] ↔ b ≠ [] := by
  cases h with
  | nil => exact Iff.rfl
  | keep => simp
  | number => simp [Nat.toDigits_ne_nil, quoted, Quoted.encode]

/-- Where a number stood at the front there is a quote. -/
theorem head?_eq_or_quote (h : Requoted n s k a b) : b.head? = a.head? ∨ b.head? = some '"' := by
  cases h with
  | nil | keep => exact .inl rfl
  | number => exact .inr rfl

/-- A text that starts with no digit starts as before. -/
theorem head? (h : Requoted n s k a b) (ha : ∀ c ∈ a.head?, Number.isDigit c = false) :
    b.head? = a.head? := by
  cases h with
  | nil | keep => rfl
  | number =>
    obtain ⟨c, cs, hc⟩ := List.exists_cons_of_ne_nil (Nat.toDigits_ne_nil (b := 10) (n := n))
    have hdigit : Number.isDigit c = true := Number.isDigit_toDigits (n := n) (by rw [hc]; simp)
    rw [ha c (by rw [hc]; rfl)] at hdigit
    cases hdigit

end Requoted

/-- The front of a text is found again after its numbers have become texts so often, whatever follows
it. -/
def ReadsAs (n : Nat) (s : String) {γ : Type} (read : Nat → List Char → γ) (slack k : Nat)
    (text rest : List Char) (found : List Char → γ) : Prop :=
  ∃ front front', text = front ++ rest ∧ Requoted n s k front front' ∧ front ≠ [] ∧
    ∀ (rest' : List Char) (fuel : Nat), rest'.head? = rest.head? →
      3 * front'.length ≤ fuel + slack → read fuel (front' ++ rest') = found rest'

namespace ReadsAs

variable {γ : Type} {read : Nat → List Char → γ} {slack j k : Nat} {text rest : List Char}
  {found : List Char → γ}

/-- Where there is something to be read there is fuel. -/
theorem of_succ {front front' : List Char} (h : Requoted n s k front front') (hne : front ≠ [])
    (hslack : slack ≤ 1) (hread : ∀ (rest' : List Char) (fuel : Nat), rest'.head? = rest.head? →
      3 * front'.length ≤ fuel + 1 + slack → read (fuel + 1) (front' ++ rest') = found rest') :
    ReadsAs n s read slack k (front ++ rest) rest found := by
  refine ⟨front, front', rfl, h, hne, fun rest' fuel hhead hfuel => ?_⟩
  have hpos := List.length_pos_iff.2 (h.ne_nil.1 hne)
  obtain ⟨fuel, rfl⟩ : ∃ f, fuel = f + 1 := ⟨fuel - 1, by omega⟩
  exact hread rest' fuel hhead hfuel

/-- What is read with one reader behind some characters is read by the next one. -/
theorem append_front {read' : Nat → List Char → γ} (h : ReadsAs n s read 1 k text rest found)
    {before : List Char} (hbefore : ∀ fuel cs, cs.head? = text.head? ∨ cs.head? = some '"' →
      read' (fuel + 1) (before ++ cs) = read fuel cs) :
    ReadsAs n s read' 0 k (before ++ text) rest found := by
  obtain ⟨front, front', rfl, hrequoted, hne, hread⟩ := h
  rw [← List.append_assoc]
  refine of_succ (hrequoted.append_left before) (by simp [hne]) (by decide) ?_
  intro rest' fuel hhead hfuel
  rw [List.length_append] at hfuel
  rw [List.append_assoc, hbefore]
  · exact hread rest' fuel hhead (by omega)
  · rw [List.head?_append_of_ne_nil _ hne,
      List.head?_append_of_ne_nil _ (hrequoted.ne_nil.1 hne)]
    exact hrequoted.head?_eq_or_quote

/-- What is read between brackets is read with them. -/
theorem cons_bracket (h : ReadsAs n s read 0 k text rest found) (c : Char)
    {whole : List Char → Document × Option (List Char)} (hc : ∀ fuel cs rest',
      read fuel cs = found rest' → value (fuel + 1) (c :: cs) = whole rest') :
    ReadsAs n s value 0 k (c :: text) rest whole := by
  obtain ⟨front, front', rfl, hrequoted, hne, hread⟩ := h
  rw [← List.cons_append]
  refine of_succ (hrequoted.keep c) (by simp) (by decide) fun rest' fuel hhead hfuel => ?_
  rw [List.length_cons] at hfuel
  exact hc fuel _ rest' (hread rest' fuel hhead (by omega))

/-- A value and what comes behind it. -/
theorem exists_value_and_rest {behind : List Char} {e : Document}
    (h : ReadsAs n s value 0 j text behind fun r => (e, some r))
    (hs : ReadsAs n s read 0 k behind rest found)
    (hbehind : ∀ c ∈ behind.head?, Number.isDigit c = false) :
    ∃ front front', text = front ++ rest ∧ Requoted n s (j + k) front front' ∧ front ≠ [] ∧
      ∀ (rest' : List Char) (fuel : Nat), rest'.head? = rest.head? →
        3 * front'.length ≤ fuel + 2 → ∃ behind', value fuel (front' ++ rest') = (e, some behind') ∧
          read fuel behind' = found rest' := by
  obtain ⟨front, front', rfl, hrequoted, hne, hread⟩ := h
  obtain ⟨more, more', rfl, hmore, hmore_ne, hreads⟩ := hs
  refine ⟨front ++ more, front' ++ more', by simp, hrequoted.append hmore, by simp [hne], ?_⟩
  intro rest' fuel hhead hfuel
  have hpos := List.length_pos_iff.2 (hrequoted.ne_nil.1 hne)
  have hpos' := List.length_pos_iff.2 (hmore.ne_nil.1 hmore_ne)
  rw [List.length_append] at hfuel
  have hstart : (more' ++ rest').head? = (more ++ rest).head? := by
    rw [List.head?_append_of_ne_nil _ hmore_ne] at hbehind ⊢
    rw [List.head?_append_of_ne_nil _ (hmore.ne_nil.1 hmore_ne)]
    exact hmore.head? hbehind
  refine ⟨more' ++ rest', ?_, hreads rest' fuel hhead (by omega)⟩
  rw [List.append_assoc]
  exact hread _ fuel hstart (by omega)

theorem append_blanks {blanks : List Char} (hb : ∀ c ∈ blanks, isBlank c = true)
    {whole : List Char → Document × Option (List Char)}
    (h : ReadsAs n s value 0 k text rest whole) :
    ReadsAs n s value 0 k (blanks ++ text) rest whole := by
  obtain ⟨front, front', rfl, hrequoted, hne, hread⟩ := h
  refine ⟨blanks ++ front, blanks ++ front', by simp, hrequoted.append_left blanks, by simp [hne], ?_⟩
  intro rest' fuel hhead hfuel
  rw [List.length_append] at hfuel
  rw [List.append_assoc, value_blanks hb]
  exact hread rest' fuel hhead (by omega)

end ReadsAs

theorem readsAs_value (front : List Char) {rest : List Char} {d : Document} (hne : front ≠ [])
    (h : ∀ (rest' : List Char) (fuel : Nat), rest'.head? = rest.head? →
      value (fuel + 1) (front ++ rest') = (d, some rest')) :
    ReadsAs n s value 0 0 (front ++ rest) rest fun r => (d, some r) :=
  .of_succ (.refl front) hne (by decide) fun rest' fuel hhead _ => h rest' fuel hhead

theorem takeWhile_blank (cs : List Char) : ∀ c ∈ cs.takeWhile isBlank, isBlank c = true :=
  fun c hc => List.all_eq_true.1 List.all_takeWhile c hc

theorem blanks_append (cs : List Char) : cs.takeWhile isBlank ++ skipBlanks cs = cs :=
  List.takeWhile_append_dropWhile

theorem Quotes.of_quoted {k : Nat} {cs : List Char} {d e : Document} {after : Option (List Char)}
    (h : ofQuoted cs = (d, after)) (hde : Quotes n s k d e) : k = 0 ∧ e = d := by
  unfold ofQuoted at h
  split at h
  all_goals
    cases h
    cases hde
    exact ⟨rfl, rfl⟩

theorem Quotes.of_numeral {k : Nat} {cs rest : List Char} {d e : Document}
    (h : ofNumber cs = (d, some rest)) (hde : Quotes n s k d e) :
    k = 0 ∧ e = d ∨ k = 1 ∧ e = .text s ∧ cs = Nat.toDigits 10 n ++ rest := by
  unfold ofNumber at h
  split at h
  · rename_i number rest' hread
    cases h
    cases hde with
    | same => exact .inl ⟨rfl, rfl⟩
    | number => exact .inr ⟨rfl, rfl, Number.eq_append_of_read hread⟩
  · cases h
    cases hde
    exact .inl ⟨rfl, rfl⟩
  · cases h

/-- The digits of a number are found again or have become a text. -/
theorem numeral_quotes {c : Char} (hc : c = '-' ∨ Number.isDigit c) {cs rest : List Char}
    {d e : Document} {k : Nat} (h : ofNumber (c :: cs) = (d, some rest)) (hde : Quotes n s k d e) :
    ReadsAs n s value 0 k (c :: cs) rest fun r => (e, some r) := by
  obtain ⟨rfl, rfl⟩ | ⟨rfl, rfl, htext⟩ := hde.of_numeral h
  · obtain ⟨front, hne, htext, hfront⟩ := ofNumber_local h
    obtain ⟨first, front, rfl⟩ := List.exists_cons_of_ne_nil hne
    obtain rfl : c = first := (List.cons.inj htext).1
    rw [htext]
    exact readsAs_value (c :: front) hne fun rest' fuel hhead =>
      (value_numeral hc fuel _).trans (hfront rest' hhead)
  · have hrequoted : Requoted n s 1 _ _ := (Requoted.refl []).number
    rw [List.append_nil, List.append_nil] at hrequoted
    rw [htext]
    exact .of_succ hrequoted Nat.toDigits_ne_nil (by decide) fun rest' fuel _ _ =>
      value_text s fuel rest'

/-! Behind an item or a member stands no digit. -/

theorem head?_of_skipBlanks {c : Char} {cs rest : List Char} (h : skipBlanks cs = c :: rest)
    (hc : Number.isDigit c = false) : ∀ x ∈ cs.head?, Number.isDigit x = false := by
  cases cs with
  | nil => simp
  | cons x cs =>
    intro y hy
    obtain rfl : x = y := by simpa using hy
    cases hblank : isBlank x with
    | false =>
      rw [skipBlanks_cons hblank] at h
      rwa [(List.cons.inj h).1]
    | true =>
      refine Bool.eq_false_iff.2 fun hdigit => ?_
      rw [(isBlank_of_isDigit hdigit).1] at hblank
      cases hblank

theorem isBlank_of_skipBlanks {c : Char} {cs rest : List Char} (h : skipBlanks cs = c :: rest) :
    isBlank c = false := by
  have hstop := List.head?_dropWhile_not isBlank cs
  rw [show cs.dropWhile isBlank = c :: rest from h] at hstop
  simpa using hstop

theorem items_head? {fuel : Nat} {cs rest : List Char} (h : (items fuel false cs).2.2 = some rest) :
    ∀ c ∈ cs.head?, Number.isDigit c = false := by
  cases fuel with
  | zero => cases h
  | succ fuel =>
    rw [items.eq_def] at h
    dsimp only at h
    split at h
    · rename_i heq
      exact head?_of_skipBlanks heq (by decide)
    · rename_i heq
      exact head?_of_skipBlanks heq (by decide)
    · rename_i hfalse _
      cases hfalse
    · cases h

theorem members_head? {fuel : Nat} {cs rest : List Char}
    (h : (members fuel false cs).2.2 = some rest) :
    ∀ c ∈ cs.head?, Number.isDigit c = false := by
  cases fuel with
  | zero => cases h
  | succ fuel =>
    rw [members.eq_def] at h
    dsimp only at h
    split at h
    · rename_i heq
      exact head?_of_skipBlanks heq (by decide)
    · rename_i heq
      exact head?_of_skipBlanks heq (by decide)
    · rename_i hfalse _
      cases hfalse
    · cases h

theorem items_comma {blanks : List Char} (hb : ∀ c ∈ blanks, isBlank c = true) (fuel : Nat)
    (cs : List Char) : items (fuel + 1) false (blanks ++ ',' :: cs) = item fuel cs := by
  rw [items.eq_def]
  dsimp only
  rw [skipBlanks_append hb, skipBlanks_cons (by decide)]
  rfl

theorem members_comma {blanks gap : List Char} (hb : ∀ c ∈ blanks, isBlank c = true)
    (hg : ∀ c ∈ gap, isBlank c = true) (fuel : Nat) (cs : List Char) :
    members (fuel + 1) false (blanks ++ ',' :: (gap ++ '"' :: cs)) = member fuel ('"' :: cs) := by
  rw [members.eq_def]
  dsimp only
  rw [skipBlanks_append hb, skipBlanks_cons (by decide)]
  change member fuel (skipBlanks (gap ++ '"' :: cs)) = _
  rw [skipBlanks_append hg, skipBlanks_cons (by decide)]

/-- The name of a member is read to its closing quote, and so is the colon behind it. -/
theorem member_colon {text behind rest : List Char} {name : Except Refusal String}
    (hname : ofName text = .ok (name, behind)) (hcolon : skipBlanks behind = ':' :: rest) :
    ∃ front, text = front ++ ':' :: rest ∧ ∀ fuel rest',
      member (fuel + 1) ('"' :: (front ++ ':' :: rest')) =
        match value fuel rest' with
        | (d, none) => ([(name, d)], none, none)
        | (d, some after) =>
          let (others, closing, after) := members fuel false after
          ((name, d) :: others, closing, after) := by
  obtain ⟨front, rfl, hfront⟩ := ofName_local hname
  refine ⟨front ++ behind.takeWhile isBlank, ?_, fun fuel rest' => ?_⟩
  · rw [List.append_assoc, ← hcolon, blanks_append]
  · rw [List.append_assoc, member, hfront]
    dsimp only
    rw [skipBlanks_append (takeWhile_blank behind), skipBlanks_cons (by decide)]
    rfl

mutual

theorem value_quotes (fuel : Nat) {cs rest : List Char} {d e : Document} {k : Nat}
    (h : value fuel cs = (d, some rest)) (hde : Quotes n s k d e) :
    ReadsAs n s value 0 k cs rest fun r => (e, some r) := by
  match fuel with
  | 0 => cases h
  | fuel + 1 =>
    rw [← blanks_append cs]
    refine .append_blanks (takeWhile_blank cs) ?_
    rw [value] at h
    split at h
    · rename_i text htext
      obtain ⟨rfl, rfl⟩ := eq_of_word h
      cases hde
      rw [htext]
      exact readsAs_value ['n', 'u', 'l', 'l'] (by simp) fun rest' fuel _ => rfl
    · rename_i text htext
      obtain ⟨rfl, rfl⟩ := eq_of_word h
      cases hde
      rw [htext]
      exact readsAs_value ['t', 'r', 'u', 'e'] (by simp) fun rest' fuel _ => rfl
    · rename_i text htext
      obtain ⟨rfl, rfl⟩ := eq_of_word h
      cases hde
      rw [htext]
      exact readsAs_value ['f', 'a', 'l', 's', 'e'] (by simp) fun rest' fuel _ => rfl
    · rename_i text htext
      obtain ⟨rfl, rfl⟩ := hde.of_quoted h
      obtain ⟨front, rfl, hfront⟩ := ofQuoted_local h
      rw [htext]
      exact readsAs_value ('"' :: front) (by simp) fun rest' fuel _ =>
        (value_quoted fuel _).trans (hfront rest')
    · rename_i text htext
      cases hitems : items fuel true text with
      | mk ds found =>
        rw [hitems] at h
        obtain ⟨rfl, hafter⟩ := Prod.mk.inj h
        obtain ⟨es, rfl, hds⟩ := hde.of_array
        obtain ⟨hclosing, hread⟩ := items_quotes fuel (hitems.trans (by rw [← hafter])) hds
        rw [htext, hclosing]
        exact hread.cons_bracket '[' fun fuel cs' rest' hcs => by rw [value_opened, hcs]
    · rename_i text htext
      cases hmembers : members fuel true text with
      | mk ds found =>
        rw [hmembers] at h
        obtain ⟨rfl, hafter⟩ := Prod.mk.inj h
        obtain ⟨es, rfl, hds⟩ := hde.of_object
        obtain ⟨hclosing, hread⟩ := members_quotes fuel (hmembers.trans (by rw [← hafter])) hds
        rw [htext, hclosing]
        exact hread.cons_bracket '\x7b' fun fuel cs' rest' hcs => by rw [value_braced, hcs]
    · rename_i c text _ _ _ _ _ _ htext
      split_ifs at h with hc
      · rw [htext]
        exact numeral_quotes hc h hde
      · cases h
    · cases h

theorem items_quotes (fuel : Nat) {first : Bool} {cs rest : List Char} {ds es : List Document}
    {closing : Option Flaw} {k : Nat} (h : items fuel first cs = (ds, closing, some rest))
    (hds : QuotesItems n s k ds es) :
    closing = none ∧ ReadsAs n s (fun f => items f first) 0 k cs rest fun r => (es, none, some r) := by
  match fuel with
  | 0 => cases h
  | fuel + 1 =>
    rw [← blanks_append cs]
    rw [items.eq_def] at h
    dsimp only at h
    split at h
    · rename_i text htext
      cases h
      cases hds
      rw [htext, List.append_cons]
      refine ⟨rfl, .of_succ (.refl _) (by simp) (by decide) fun rest' fuel _ _ => ?_⟩
      rw [List.append_assoc]
      exact items_closed (takeWhile_blank cs) fuel _ rest'
    · rename_i text htext
      obtain ⟨rfl, hread⟩ := item_quotes fuel h hds
      rw [htext, List.append_cons]
      refine ⟨rfl, hread.append_front fun fuel cs' _ => ?_⟩
      rw [← List.append_cons]
      exact items_comma (takeWhile_blank cs) fuel cs'
    · rename_i c text hclosed htext
      obtain ⟨rfl, hread⟩ := item_quotes fuel h hds
      rw [htext]
      refine ⟨rfl, hread.append_front fun fuel cs' hhead => ?_⟩
      -- in place of a number may stand a quote
      rcases hhead with heq | heq
      · obtain ⟨cs', rfl⟩ := List.head?_eq_some_iff.1 heq
        exact items_first (takeWhile_blank cs) fuel (isBlank_of_skipBlanks htext) hclosed cs'
      · obtain ⟨cs', rfl⟩ := List.head?_eq_some_iff.1 heq
        exact items_first (takeWhile_blank cs) fuel (by decide) (by decide) cs'
    · cases h

theorem item_quotes (fuel : Nat) {cs rest : List Char} {ds es : List Document}
    {closing : Option Flaw} {k : Nat} (h : item fuel cs = (ds, closing, some rest))
    (hds : QuotesItems n s k ds es) :
    closing = none ∧ ReadsAs n s item 1 k cs rest fun r => (es, none, some r) := by
  match fuel with
  | 0 => cases h
  | fuel + 1 =>
    rw [item] at h
    split at h
    · cases h
    · rename_i d behind hvalue
      cases hds with
      | nil => cases h
      | cons hde hs =>
        cases hitems : items fuel false behind with
        | mk others found =>
          rw [hitems] at h
          obtain ⟨rfl, rfl⟩ := List.cons.inj (congrArg Prod.fst h)
          obtain rfl : found = (closing, some rest) := congrArg Prod.snd h
          obtain ⟨rfl, hreads⟩ := items_quotes fuel hitems hs
          obtain ⟨front, front', rfl, hrequoted, hne, hread⟩ :=
            (value_quotes fuel hvalue hde).exists_value_and_rest hreads (items_head? (by rw [hitems]))
          refine ⟨rfl, .of_succ hrequoted hne le_rfl fun rest' fuel hhead hfuel => ?_⟩
          obtain ⟨behind', hfirst, hothers⟩ := hread rest' fuel hhead hfuel
          rw [item, hfirst]
          dsimp only
          rw [show items fuel false behind' = _ from hothers]

theorem members_quotes (fuel : Nat) {first : Bool} {cs rest : List Char}
    {ds es : List (Except Refusal String × Document)} {closing : Option Flaw} {k : Nat}
    (h : members fuel first cs = (ds, closing, some rest)) (hds : QuotesMembers n s k ds es) :
    closing = none ∧
      ReadsAs n s (fun f => members f first) 0 k cs rest fun r => (es, none, some r) := by
  match fuel with
  | 0 => cases h
  | fuel + 1 =>
    rw [← blanks_append cs]
    rw [members.eq_def] at h
    dsimp only at h
    split at h
    · rename_i text htext
      cases h
      cases hds
      rw [htext, List.append_cons]
      refine ⟨rfl, .of_succ (.refl _) (by simp) (by decide) fun rest' fuel _ _ => ?_⟩
      rw [List.append_assoc]
      exact members_closed (takeWhile_blank cs) fuel _ rest'
    · rename_i text htext
      obtain ⟨rfl, named, htext', hread⟩ := member_quotes fuel h hds
      refine ⟨rfl, ?_⟩
      rw [htext, ← blanks_append text, htext', ← List.cons_append, ← List.append_assoc]
      refine hread.append_front fun fuel cs' hhead => ?_
      obtain ⟨cs', rfl⟩ := List.head?_eq_some_iff.1 (or_self_iff.1 hhead)
      rw [List.append_assoc, List.cons_append]
      exact members_comma (takeWhile_blank cs) (takeWhile_blank text) fuel cs'
    · rename_i c text hclosed htext
      obtain ⟨rfl, named, htext', hread⟩ := member_quotes fuel h hds
      rw [htext, htext']
      refine ⟨rfl, hread.append_front fun fuel cs' hhead => ?_⟩
      obtain ⟨cs', rfl⟩ := List.head?_eq_some_iff.1 (or_self_iff.1 hhead)
      exact members_quoted (takeWhile_blank cs) fuel true cs'
    · cases h

theorem member_quotes (fuel : Nat) {cs rest : List Char}
    {ds es : List (Except Refusal String × Document)} {closing : Option Flaw} {k : Nat}
    (h : member fuel cs = (ds, closing, some rest)) (hds : QuotesMembers n s k ds es) :
    closing = none ∧ ∃ text, cs = '"' :: text ∧
      ReadsAs n s member 1 k ('"' :: text) rest fun r => (es, none, some r) := by
  match fuel with
  | 0 => cases h
  | fuel + 1 =>
    rw [member.eq_def] at h
    dsimp only at h
    split at h
    · rename_i text
      cases hname : ofName text with
      | error flaw =>
        rw [hname] at h
        cases h
      | ok found =>
        obtain ⟨name, named⟩ := found
        rw [hname] at h
        dsimp only at h
        split at h
        · rename_i colon hcolon
          split at h
          · cases h
          · rename_i d behind hvalue
            cases hds with
            | nil => cases h
            | cons key hde hs =>
              cases hmembers : members fuel false behind with
              | mk others found =>
                rw [hmembers] at h
                obtain ⟨hmember, rfl⟩ := List.cons.inj (congrArg Prod.fst h)
                obtain ⟨rfl, rfl⟩ := Prod.mk.inj hmember
                obtain rfl : found = (closing, some rest) := congrArg Prod.snd h
                obtain ⟨rfl, hreads⟩ := members_quotes fuel hmembers hs
                obtain ⟨before, rfl, hmember⟩ := member_colon hname hcolon
                obtain ⟨front, front', rfl, hrequoted, hne, hread⟩ :=
                  (value_quotes fuel hvalue hde).exists_value_and_rest hreads
                    (members_head? (by rw [hmembers]))
                have htext (front more : List Char) : '"' :: (before ++ ':' :: (front ++ more)) =
                    '"' :: (before ++ [':']) ++ front ++ more := by simp
                refine ⟨rfl, _, rfl, ?_⟩
                rw [htext]
                refine .of_succ (hrequoted.append_left _) (by simp) le_rfl ?_
                intro rest' fuel hhead hfuel
                rw [List.length_append] at hfuel
                obtain ⟨behind', hfirst, hothers⟩ := hread rest' fuel hhead (by omega)
                rw [← htext, hmember, hfirst]
                dsimp only
                rw [show members fuel false behind' = _ from hothers]
        · cases h
    · cases h

end

/-- A text that holds a document, with the digits of one number replaced, holds the document with
that number replaced. -/
theorem Holds.requoted {text : String} {d e : Document} (h : Holds text d) (hde : Quotes n s 1 d e) :
    ∃ (before after : List Char) (text' : String),
      text.toList = before ++ (Nat.toDigits 10 n ++ after) ∧
        text'.toList = before ++ (quoted s ++ after) ∧ Holds text' e := by
  obtain ⟨rest, htext, hrest⟩ := h
  obtain ⟨front, front', hfront, hrequoted, -, hread⟩ := value_quotes _ htext hde
  obtain ⟨before, after, rfl, rfl⟩ := hrequoted.exists_append_of_one
  refine ⟨before, after ++ rest, String.ofList (before ++ (quoted s ++ after) ++ rest), ?_, ?_, ?_⟩
  · rw [hfront, List.append_assoc, List.append_assoc]
  · rw [String.toList_ofList, List.append_assoc, List.append_assoc]
  · refine ⟨rest, ?_, hrest⟩
    rw [String.toList_ofList]
    refine hread rest _ rfl ?_
    simp only [fuel, List.length_append]
    omega

end LongMode.Json

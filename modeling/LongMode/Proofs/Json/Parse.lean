import LongMode.Json.Document
import LongMode.Json.Printer
import LongMode.Proofs.Json.Number
import LongMode.Proofs.Json.Quoted
/-!
A shallow value reads back as it is spelled, whether on one line or on many. Shallow values have
numbers of 64 bits and not too many brackets one inside the other. Plain values have the members of an
object in the order of their names as well, each name once; such a value survives the reading of a
whole text as it is.
-/

namespace LongMode.Json

open Document

mutual

def document : Json → Document
  | null => .null
  | bool b => .bool b
  | number n => .number (.natural n)
  | text s => .text s
  | array items => .array (documents items) none
  | object members => .object (namedDocuments members) none

def documents : List Json → List Document
  | [] => []
  | j :: rest => j.document :: documents rest

def namedDocuments : List (String × Json) → List (Except Refusal String × Document)
  | [] => []
  | (name, j) :: rest => (.ok name, j.document) :: namedDocuments rest

end

/-- At most `n` brackets of the value stand one inside the other, and its numbers have 64 bits. -/
inductive Shallow : Nat → Json → Prop
  | null {n : Nat} : Shallow n null
  | bool {n : Nat} (b : Bool) : Shallow n (bool b)
  | number {n v : Nat} (h : v < UInt64.size) : Shallow n (number v)
  | text {n : Nat} (s : String) : Shallow n (text s)
  | array {n : Nat} {items : List Json} (h : ∀ j ∈ items, Shallow n j) :
    Shallow (n + 1) (array items)
  | object {n : Nat} {members : List (String × Json)} (h : ∀ m ∈ members, Shallow n m.2) :
    Shallow (n + 1) (object members)

/-- At most `n` brackets of the value stand one inside the other, its numbers have 64 bits, and the
members of its objects are in the order of their names, each name once. -/
inductive Plain : Nat → Json → Prop
  | null {n : Nat} : Plain n null
  | bool {n : Nat} (b : Bool) : Plain n (bool b)
  | number {n v : Nat} (h : v < UInt64.size) : Plain n (number v)
  | text {n : Nat} (s : String) : Plain n (text s)
  | array {n : Nat} {items : List Json} (h : ∀ j ∈ items, Plain n j) : Plain (n + 1) (array items)
  | object {n : Nat} {members : List (String × Json)} (hs : members.Pairwise (·.1 < ·.1))
    (h : ∀ m ∈ members, Plain n m.2) : Plain (n + 1) (object members)

theorem Plain.shallow {n : Nat} {j : Json} (h : Plain n j) : Shallow n j := by
  induction h with
  | null => exact .null
  | bool b => exact .bool b
  | number h => exact .number h
  | text s => exact .text s
  | array _ ih => exact .array ih
  | object _ _ ih => exact .object ih

/-- The blanks between the parts of a value: in front of each item and member and of a closing
bracket, at a depth, and behind the colon of a member. -/
structure Layout where
  line : Nat → List Char
  gap : List Char
  line_blank : ∀ depth, ∀ c ∈ line depth, isBlank c = true
  gap_blank : ∀ c ∈ gap, isBlank c = true

namespace Layout

def compact : Layout := ⟨fun _ => [], [], by simp, by simp⟩

def pretty : Layout where
  line := newLine
  gap := [' ']
  line_blank depth c hc := by
    obtain rfl | hc := List.mem_cons.1 hc
    · rfl
    · rw [List.eq_of_mem_replicate hc]
      rfl
  gap_blank c hc := by
    rw [List.mem_singleton.1 hc]
    rfl

end Layout

mutual

/-- The value spelled in a layout, as it stands at a depth. -/
def spell (l : Layout) (depth : Nat) : Json → List Char
  | array items => '[' :: spellItems l depth true items
  | object members => '\x7b' :: spellMembers l depth true members
  | j => j.atom

def spellItems (l : Layout) (depth : Nat) (first : Bool) : List Json → List Char
  | [] => (if first then [] else l.line depth) ++ [']']
  | j :: rest =>
    (if first then [] else [',']) ++ l.line (depth + 1) ++ j.spell l (depth + 1) ++
      spellItems l depth false rest

def spellMembers (l : Layout) (depth : Nat) (first : Bool) : List (String × Json) → List Char
  | [] => (if first then [] else l.line depth) ++ ['\x7d']
  | (name, j) :: rest =>
    (if first then [] else [',']) ++ l.line (depth + 1) ++ quoted name ++ ':' :: l.gap ++
      j.spell l (depth + 1) ++ spellMembers l depth false rest

end


variable {l : Layout} {depth : Nat}

theorem spellItems_cons (l : Layout) (depth : Nat) (j : Json) (rest : List Json) :
    spellItems l depth false (j :: rest) = ',' :: spellItems l depth true (j :: rest) := rfl

theorem spellMembers_cons (l : Layout) (depth : Nat) (m : String × Json)
    (rest : List (String × Json)) :
    spellMembers l depth false (m :: rest) = ',' :: spellMembers l depth true (m :: rest) := rfl

/-! The two printers spell in the two layouts. -/

mutual

theorem compactChars_eq_spell (j : Json) (depth : Nat) :
    j.compactChars = j.spell Layout.compact depth := by
  cases j with
  | array items => exact congrArg ('[' :: ·) (compactItems_eq_spell items depth)
  | object members => exact congrArg ('\x7b' :: ·) (compactMembers_eq_spell members depth)
  | null | bool | number | text => rfl

theorem compactItems_eq_spell (items : List Json) (depth : Nat) :
    compactItems items = spellItems Layout.compact depth true items := by
  match items with
  | [] => rfl
  | [j] => rw [compactItems, compactChars_eq_spell j (depth + 1)]; rfl
  | j :: k :: rest =>
    rw [compactItems, compactChars_eq_spell j (depth + 1), compactItems_eq_spell (k :: rest) depth,
      ← spellItems_cons]
    · rfl
    · simp

theorem compactMembers_eq_spell (members : List (String × Json)) (depth : Nat) :
    compactMembers members = spellMembers Layout.compact depth true members := by
  match members with
  | [] => rfl
  | [(name, j)] =>
    rw [compactMembers, compactChars_eq_spell j (depth + 1)]
    simp only [spellMembers, Layout.compact, List.append_assoc, List.cons_append, List.nil_append,
      if_true, Bool.false_eq_true, if_false]
  | (name, j) :: m :: rest =>
    rw [compactMembers, compactChars_eq_spell j (depth + 1),
      compactMembers_eq_spell (m :: rest) depth, ← spellMembers_cons]
    · simp only [spellMembers, Layout.compact, List.append_assoc, List.cons_append,
        List.nil_append, if_true]
    · simp

end

mutual

theorem prettyChars_eq_spell (j : Json) (depth : Nat) :
    j.prettyChars depth = j.spell Layout.pretty depth := by
  match j with
  | array [] | object [] => rfl
  | array (j :: rest) =>
    rw [prettyChars, List.cons_append, List.cons_append,
      prettyItems_eq_spell (j :: rest) depth (by simp)]
    rfl
  | object (m :: rest) =>
    rw [prettyChars, List.cons_append, List.cons_append,
      prettyMembers_eq_spell (m :: rest) depth (by simp)]
    rfl
  | null | bool _ | number _ | text _ => rfl

theorem prettyItems_eq_spell (items : List Json) (depth : Nat) (h : items ≠ []) :
    prettyItems (depth + 1) items ++ newLine depth ++ [']'] =
      spellItems Layout.pretty depth true items := by
  match items with
  | [j] =>
    rw [prettyItems, prettyChars_eq_spell j (depth + 1)]
    simp [spellItems, Layout.pretty]
  | j :: k :: rest =>
    have hrest := prettyItems_eq_spell (k :: rest) depth (by simp)
    rw [prettyItems, prettyChars_eq_spell j (depth + 1), spellItems, spellItems_cons, ← hrest]
    · simp [Layout.pretty]
    · simp

theorem prettyMembers_eq_spell (members : List (String × Json)) (depth : Nat) (h : members ≠ []) :
    prettyMembers (depth + 1) members ++ newLine depth ++ ['\x7d'] =
      spellMembers Layout.pretty depth true members := by
  match members with
  | [(name, j)] =>
    rw [prettyMembers, prettyChars_eq_spell j (depth + 1)]
    simp [spellMembers, Layout.pretty]
  | (name, j) :: m :: rest =>
    have hrest := prettyMembers_eq_spell (m :: rest) depth (by simp)
    rw [prettyMembers, prettyChars_eq_spell j (depth + 1), spellMembers, spellMembers_cons, ← hrest]
    · simp [Layout.pretty]
    · simp

end


/-! Reading goes over the blanks in front of a value and stops behind it. -/

theorem skipBlanks_append {blanks : List Char} (hb : ∀ c ∈ blanks, isBlank c = true)
    (cs : List Char) : skipBlanks (blanks ++ cs) = skipBlanks cs :=
  List.dropWhile_append_of_pos hb

theorem skipBlanks_cons {c : Char} (h : isBlank c = false) (cs : List Char) :
    skipBlanks (c :: cs) = c :: cs := by
  rw [skipBlanks, List.dropWhile_cons, if_neg (by simp [h])]

theorem stops_cons {c : Char} (h : isBlank c = true ∨ c = ',' ∨ c = ']' ∨ c = '\x7d')
    (cs : List Char) : Number.Stops (c :: cs) := by
  intro d hd
  cases hd
  simp only [isBlank, Bool.or_eq_true, beq_iff_eq, or_assoc] at h
  rcases h with rfl | rfl | rfl | rfl | rfl | rfl | rfl <;> decide

theorem stops_blanks {blanks cs : List Char} (hb : ∀ c ∈ blanks, isBlank c = true)
    (hc : Number.Stops cs) : Number.Stops (blanks ++ cs) := by
  cases blanks with
  | nil => exact hc
  | cons c blanks => exact stops_cons (.inl (hb c (by simp))) _

theorem stops_items (items : List Json) (rest : List Char) :
    Number.Stops (spellItems l depth false items ++ rest) := by
  cases items with
  | nil =>
    rw [spellItems, List.append_assoc]
    exact stops_blanks (l.line_blank depth) (stops_cons (by simp) _)
  | cons j items => exact stops_cons (by simp) _

theorem stops_members (members : List (String × Json)) (rest : List Char) :
    Number.Stops (spellMembers l depth false members ++ rest) := by
  cases members with
  | nil =>
    rw [spellMembers, List.append_assoc]
    exact stops_blanks (l.line_blank depth) (stops_cons (by simp) _)
  | cons m members => exact stops_cons (by simp) _

theorem isBlank_of_isDigit {c : Char} (h : Number.isDigit c = true) :
    isBlank c = false ∧ c ≠ ']' := by
  have hne (d : Char) (hd : Number.isDigit d = false) : c ≠ d := by
    rintro rfl
    exact absurd h (by simp [hd])
  refine ⟨?_, hne ']' (by decide)⟩
  simp only [isBlank, Bool.or_eq_false_iff, beq_eq_false_iff_ne]
  exact ⟨⟨⟨hne ' ' (by decide), hne '\n' (by decide)⟩, hne '\t' (by decide)⟩, hne '\r' (by decide)⟩

/-- A value starts with a character that is neither a blank nor a closing bracket. -/
theorem spell_head (l : Layout) (depth : Nat) (j : Json) :
    ∃ c cs, j.spell l depth = c :: cs ∧ isBlank c = false ∧ c ≠ ']' := by
  match j with
  | null => exact ⟨'n', _, rfl, by decide, by decide⟩
  | bool true => exact ⟨'t', _, rfl, by decide, by decide⟩
  | bool false => exact ⟨'f', _, rfl, by decide, by decide⟩
  | text s => exact ⟨'"', _, rfl, by decide, by decide⟩
  | array items => exact ⟨'[', _, rfl, by decide, by decide⟩
  | object members => exact ⟨'\x7b', _, rfl, by decide, by decide⟩
  | number n =>
    obtain ⟨c, cs, h⟩ := List.exists_cons_of_ne_nil (Nat.toDigits_ne_nil (b := 10) (n := n))
    exact ⟨c, cs, h, isBlank_of_isDigit (Number.isDigit_toDigits (n := n) (by rw [h]; simp))⟩

/-- The value reads back wherever it is spelled in the layout. -/
def Reads (l : Layout) (j : Json) : Prop :=
  ∀ (depth : Nat) (blanks rest : List Char) (fuel : Nat), (∀ c ∈ blanks, isBlank c = true) →
    Number.Stops rest → 3 * (j.spell l depth).length ≤ fuel →
      value fuel (blanks ++ j.spell l depth ++ rest) = (j.document, some rest)

theorem value_blanks {blanks : List Char} (hb : ∀ c ∈ blanks, isBlank c = true) (fuel : Nat)
    (cs : List Char) : value fuel (blanks ++ cs) = value fuel cs := by
  cases fuel with
  | zero => rfl
  | succ fuel => rw [value, value, skipBlanks_append hb]

/-- It suffices to read the value where no blanks are in front of it. -/
theorem reads_of_value {j : Json}
    (h : ∀ (depth : Nat) (rest : List Char) (fuel : Nat), Number.Stops rest →
      3 * (j.spell l depth).length ≤ fuel + 1 →
        value (fuel + 1) (j.spell l depth ++ rest) = (j.document, some rest)) : Reads l j := by
  intro depth blanks rest fuel hb hr hfuel
  obtain ⟨c, cs, hc, -⟩ := spell_head l depth j
  rw [List.append_assoc, value_blanks hb]
  cases fuel with
  | zero =>
    rw [hc, List.length_cons] at hfuel
    omega
  | succ fuel => exact h depth rest fuel hr hfuel

/-- A sign or a digit is the front of a number. -/
theorem value_numeral {c : Char} (hc : c = '-' ∨ Number.isDigit c) (fuel : Nat) (cs : List Char) :
    value (fuel + 1) (c :: cs) = ofNumber (c :: cs) := by
  have hne (d : Char) (hd : d ≠ '-' := by decide) (hdigit : Number.isDigit d = false := by decide) :
      c ≠ d := by
    rintro rfl
    obtain hc | hc := hc
    · exact hd hc
    · rw [hdigit] at hc
      cases hc
  have hblank : isBlank c = false := by
    simp [isBlank, hne ' ', hne '\n', hne '\t', hne '\r']
  rw [value, skipBlanks_cons hblank]
  split
  all_goals rename_i heq
  all_goals cases heq
  · exact absurd rfl (hne 'n')
  · exact absurd rfl (hne 't')
  · exact absurd rfl (hne 'f')
  · exact absurd rfl (hne '"')
  · exact absurd rfl (hne '[')
  · exact absurd rfl (hne '\x7b')
  · exact if_pos hc

theorem value_quoted (fuel : Nat) (cs : List Char) : value (fuel + 1) ('"' :: cs) = ofQuoted cs := by
  rw [value, skipBlanks_cons (by decide)]
  rfl

theorem value_number {n : Nat} (hn : n < UInt64.size) (fuel : Nat) {rest : List Char}
    (hr : Number.Stops rest) :
    value (fuel + 1) (Nat.toDigits 10 n ++ rest) = (.number (.natural n), some rest) := by
  obtain ⟨c, cs, hc⟩ := List.exists_cons_of_ne_nil (Nat.toDigits_ne_nil (b := 10) (n := n))
  have hdigit : Number.isDigit c = true := Number.isDigit_toDigits (n := n) (by rw [hc]; simp)
  have hread := Number.read_toDigits hn hr
  rw [hc] at hread ⊢
  rw [List.cons_append, value_numeral (.inr hdigit), ofNumber, ← List.cons_append, hread]

theorem value_text (s : String) (fuel : Nat) (rest : List Char) :
    value (fuel + 1) (quoted s ++ rest) = (.text s, some rest) := by
  have htext : quoted s ++ rest = '"' :: (s.toList.flatMap Quoted.escape ++ '"' :: rest) := by
    simp [quoted, Quoted.encode]
  rw [htext, value_quoted, ofQuoted, Quoted.read_encode]
  simp

theorem ofName_quoted (s : String) (rest : List Char) :
    ofName (s.toList.flatMap Quoted.escape ++ '"' :: rest) = .ok (.ok s, rest) := by
  rw [ofName, Quoted.read_encode]
  simp

theorem spellItems_length_pos (l : Layout) (depth : Nat) (first : Bool) (js : List Json) :
    0 < (spellItems l depth first js).length := by
  cases js with
  | nil => simp [spellItems]
  | cons j js =>
    obtain ⟨c, cs, hc, -⟩ := spell_head l (depth + 1) j
    simp [spellItems, hc]

theorem spellMembers_length_pos (l : Layout) (depth : Nat) (first : Bool)
    (ms : List (String × Json)) : 0 < (spellMembers l depth first ms).length := by
  cases ms <;> simp [spellMembers]

theorem items_closed {blanks : List Char} (hb : ∀ c ∈ blanks, isBlank c = true) (fuel : Nat)
    (first : Bool) (rest : List Char) :
    items (fuel + 1) first (blanks ++ ']' :: rest) = ([], none, some rest) := by
  rw [items.eq_def]
  dsimp only
  rw [skipBlanks_append hb, skipBlanks_cons (by decide)]
  cases first <;> rfl

/-- In front of the first item there is no comma. -/
theorem items_first {blanks : List Char} (hb : ∀ c ∈ blanks, isBlank c = true) (fuel : Nat)
    {c : Char} (hc : isBlank c = false) (hne : c ≠ ']') (cs : List Char) :
    items (fuel + 1) true (blanks ++ c :: cs) = item fuel (c :: cs) := by
  rw [items.eq_def]
  dsimp only
  rw [skipBlanks_append hb, skipBlanks_cons hc]
  split
  · rename_i heq
    cases heq
    exact absurd rfl hne
  · rename_i hfalse _
    cases hfalse
  · rename_i heq
    cases heq
    rfl
  · rename_i hcons
    exact (hcons c cs rfl rfl).elim

theorem items_further (fuel : Nat) (cs : List Char) :
    items (fuel + 1) false (',' :: cs) = item fuel cs := by
  rw [items.eq_def]
  dsimp only
  rw [skipBlanks_cons (by decide)]
  rfl

/-- Items read back one after the other. -/
theorem items_spell {js : List Json} (h : ∀ j ∈ js, Reads l j) (depth : Nat) (first : Bool)
    (rest : List Char) (fuel : Nat) (hfuel : 3 * (spellItems l depth first js).length ≤ fuel) :
    items fuel first (spellItems l depth first js ++ rest) = (documents js, none, some rest) := by
  induction js generalizing first fuel with
  | nil =>
    have hpos := spellItems_length_pos l depth first []
    obtain ⟨fuel, rfl⟩ : ∃ k, fuel = k + 1 := ⟨fuel - 1, by omega⟩
    rw [spellItems, List.append_assoc]
    refine items_closed ?_ fuel first rest
    cases first
    · exact l.line_blank depth
    · simp
  | cons j js ih =>
    obtain ⟨c, cs, hc, hblank, hbracket⟩ := spell_head l (depth + 1) j
    have hpos := spellItems_length_pos l depth false js
    have hlength : 3 * ((j.spell l (depth + 1)).length + (spellItems l depth false js).length) ≤
        fuel := by
      rw [spellItems] at hfuel
      simp only [List.length_append] at hfuel
      omega
    obtain ⟨fuel, rfl⟩ : ∃ k, fuel = k + 2 := ⟨fuel - 2, by omega⟩
    have hrest := ih (fun k hk => h k (List.mem_cons_of_mem j hk)) false fuel
      (by rw [hc, List.length_cons] at hlength; omega)
    -- blanks may stand in front of an item
    have hitem (blanks : List Char) (hb : ∀ c ∈ blanks, isBlank c = true) :
        item (fuel + 1) (blanks ++ j.spell l (depth + 1) ++ (spellItems l depth false js ++ rest)) =
          (documents (j :: js), none, some rest) := by
      rw [item, h j (by simp) (depth + 1) blanks _ fuel hb (stops_items js rest) (by omega)]
      dsimp only
      rw [hrest]
      rfl
    cases first with
    | false =>
      have htext : spellItems l depth false (j :: js) ++ rest = ',' :: (l.line (depth + 1) ++
          j.spell l (depth + 1) ++ (spellItems l depth false js ++ rest)) := by
        simp [spellItems]
      rw [htext, items_further]
      exact hitem _ (l.line_blank (depth + 1))
    | true =>
      have htext : spellItems l depth true (j :: js) ++ rest = l.line (depth + 1) ++
          (c :: (cs ++ (spellItems l depth false js ++ rest))) := by
        simp [spellItems, hc]
      have hbare := hitem [] (by simp)
      rw [hc] at hbare
      rw [htext, items_first (l.line_blank (depth + 1)) _ hblank hbracket]
      exact hbare

theorem members_closed {blanks : List Char} (hb : ∀ c ∈ blanks, isBlank c = true) (fuel : Nat)
    (first : Bool) (rest : List Char) :
    members (fuel + 1) first (blanks ++ '\x7d' :: rest) = ([], none, some rest) := by
  rw [members.eq_def]
  dsimp only
  rw [skipBlanks_append hb, skipBlanks_cons (by decide)]
  cases first <;> rfl

/-- A name in its quotes is found in front of the first member and in front of those behind it. -/
theorem members_quoted {blanks : List Char} (hb : ∀ c ∈ blanks, isBlank c = true) (fuel : Nat)
    (first : Bool) (cs : List Char) :
    members (fuel + 1) first ((if first then [] else [',']) ++ (blanks ++ '"' :: cs)) =
      member fuel ('"' :: cs) := by
  have hskip : skipBlanks (blanks ++ '"' :: cs) = '"' :: cs :=
    (skipBlanks_append hb _).trans (skipBlanks_cons (by decide) _)
  rw [members.eq_def]
  cases first with
  | false =>
    change member fuel (skipBlanks (blanks ++ '"' :: cs)) = _
    rw [hskip]
  | true =>
    rw [if_pos rfl, List.nil_append]
    dsimp only
    rw [hskip]
    rfl

/-- Members read back one after the other. -/
theorem members_spell {ms : List (String × Json)} (h : ∀ m ∈ ms, Reads l m.2) (depth : Nat)
    (first : Bool) (rest : List Char) (fuel : Nat)
    (hfuel : 3 * (spellMembers l depth first ms).length ≤ fuel) :
    members fuel first (spellMembers l depth first ms ++ rest) =
      (namedDocuments ms, none, some rest) := by
  induction ms generalizing first fuel with
  | nil =>
    have hpos := spellMembers_length_pos l depth first []
    obtain ⟨fuel, rfl⟩ : ∃ k, fuel = k + 1 := ⟨fuel - 1, by omega⟩
    rw [spellMembers, List.append_assoc]
    refine members_closed ?_ fuel first rest
    cases first
    · exact l.line_blank depth
    · simp
  | cons m ms ih =>
    obtain ⟨name, j⟩ := m
    have hpos := spellMembers_length_pos l depth false ms
    have hlength : 3 * (1 + (j.spell l (depth + 1)).length +
        (spellMembers l depth false ms).length) ≤ fuel := by
      rw [spellMembers] at hfuel
      simp only [List.length_append, List.length_cons] at hfuel
      omega
    obtain ⟨fuel, rfl⟩ : ∃ k, fuel = k + 2 := ⟨fuel - 2, by omega⟩
    have hrest := ih (fun m hm => h m (List.mem_cons_of_mem _ hm)) false fuel (by omega)
    have htext : spellMembers l depth first ((name, j) :: ms) ++ rest =
        (if first then [] else [',']) ++ (l.line (depth + 1) ++ '"' ::
          (name.toList.flatMap Quoted.escape ++ '"' :: ':' ::
            (l.gap ++ j.spell l (depth + 1) ++ (spellMembers l depth false ms ++ rest)))) := by
      simp [spellMembers, quoted, Quoted.encode]
    rw [htext, members_quoted (l.line_blank (depth + 1)), member, ofName_quoted]
    dsimp only
    rw [skipBlanks_cons (by decide)]
    have hvalue : value fuel (l.gap ++ j.spell l (depth + 1) ++
        (spellMembers l depth false ms ++ rest)) = (j.document, some _) :=
      h (name, j) (by simp) (depth + 1) l.gap _ fuel l.gap_blank (stops_members ms rest)
        (by dsimp only; omega)
    simp only [hvalue, hrest]
    rfl

theorem value_opened (fuel : Nat) (cs : List Char) :
    value (fuel + 1) ('[' :: cs) =
      (.array (items fuel true cs).1 (items fuel true cs).2.1, (items fuel true cs).2.2) := by
  rw [value, skipBlanks_cons (by decide)]
  rfl

theorem value_braced (fuel : Nat) (cs : List Char) :
    value (fuel + 1) ('\x7b' :: cs) =
      (.object (members fuel true cs).1 (members fuel true cs).2.1, (members fuel true cs).2.2) := by
  rw [value, skipBlanks_cons (by decide)]
  rfl

/-- A shallow value reads back. -/
theorem Shallow.reads {n : Nat} {j : Json} (h : Shallow n j) : Reads l j := by
  refine reads_of_value fun depth rest fuel hr hfuel => ?_
  induction h generalizing depth rest fuel with
  | null => rfl
  | bool b => cases b <;> rfl
  | number h => exact value_number h fuel hr
  | text s => exact value_text s fuel rest
  | @array n js h ih =>
    have hread := items_spell (fun j hj => reads_of_value (l := l) (ih j hj)) depth true rest fuel
      (by rw [spell, List.length_cons] at hfuel; omega)
    rw [spell, List.cons_append, value_opened, hread]
    rfl
  | @object n ms h ih =>
    have hread := members_spell (fun m hm => reads_of_value (l := l) (ih m hm)) depth true rest fuel
      (by rw [spell, List.length_cons] at hfuel; omega)
    rw [spell, List.cons_append, value_braced, hread]
    rfl

/-! Whole texts. -/

theorem namedDocuments_eq_map (ms : List (String × Json)) :
    namedDocuments ms = ms.map fun m => (.ok m.1, m.2.document) := by
  induction ms with
  | nil => rfl
  | cons m ms ih => rw [namedDocuments, ih, List.map_cons]

theorem inspectItems_ok {depth : Nat} {js : List Json}
    (h : ∀ j ∈ js, j.document.inspect depth = .ok ()) :
    inspectItems depth (documents js) = .ok () := by
  induction js with
  | nil => rfl
  | cons j js ih =>
    rw [documents, inspectItems, h j (by simp)]
    exact ih fun k hk => h k (List.mem_cons_of_mem j hk)

theorem inspectMembers_ok {depth : Nat} {ms : List (String × Json)}
    (h : ∀ m ∈ ms, m.2.document.inspect depth = .ok ()) :
    inspectMembers depth (namedDocuments ms) = .ok () := by
  induction ms with
  | nil => rfl
  | cons m ms ih =>
    have hm : m.2.document.inspect depth = .ok () := h m (by simp)
    change (m.2.document.inspect depth >>= fun _ => inspectMembers depth (namedDocuments ms)) = _
    rw [hm]
    exact ih fun k hk => h k (List.mem_cons_of_mem m hk)

/-- Every part of a shallow value may be looked at, unless too many brackets are open around it. -/
theorem Shallow.inspect {n : Nat} {j : Json} (h : Shallow n j) {depth : Nat}
    (hdepth : depth + n ≤ maxDepth) : j.document.inspect depth = .ok () := by
  induction h generalizing depth with
  | null | bool | number | text => rfl
  | @array n js h ih =>
    rw [document, Document.inspect, if_pos (by omega),
      inspectItems_ok fun j hj => ih j hj (by omega)]
    rfl
  | @object n ms h ih =>
    rw [document, Document.inspect, if_pos (by omega),
      inspectMembers_ok fun m hm => ih m hm (by omega)]
    rfl

theorem byName_sorted {α : Type} (ms : List (String × α)) : (byName ms).Pairwise (·.1 ≤ ·.1) := by
  refine (List.pairwise_mergeSort (fun a b c hab hbc => ?_) (fun a b => ?_) ms).imp of_decide_eq_true
  · rw [decide_eq_true_eq] at hab hbc ⊢
    exact String.le_trans hab hbc
  · rw [Bool.or_eq_true, decide_eq_true_eq, decide_eq_true_eq]
    exact String.le_total _ _

theorem byName_of_sorted {α : Type} {ms : List (String × α)} (h : ms.Pairwise (·.1 < ·.1)) :
    byName ms = ms :=
  List.mergeSort_of_pairwise (h.imp fun hab => decide_eq_true (String.not_lt.1 (String.lt_asymm hab)))

theorem lastOfName_of_sorted {α : Type} {ms : List (String × α)} (h : ms.Pairwise (·.1 < ·.1)) :
    lastOfName ms = ms := by
  induction ms with
  | nil => rfl
  | cons a ms ih =>
    cases ms with
    | nil => rfl
    | cons b ms =>
      have hlt : a.1 < b.1 := List.rel_of_pairwise_cons h (by simp)
      have hne : a.1 ≠ b.1 := fun heq => String.lt_irrefl b.1 (heq ▸ hlt)
      rw [lastOfName, if_neg hne, ih h.of_cons]

theorem canonicalItems_of_forall {js : List Json}
    (h : ∀ j ∈ js, j.document.canonical = j.document) :
    canonicalItems (documents js) = documents js := by
  induction js with
  | nil => rfl
  | cons j js ih =>
    rw [documents, canonicalItems, h j (by simp), ih fun k hk => h k (List.mem_cons_of_mem j hk)]

theorem canonicalMembers_of_forall {ms : List (String × Json)}
    (h : ∀ m ∈ ms, m.2.document.canonical = m.2.document) :
    canonicalMembers (namedDocuments ms) = ms.map fun m => (m.1, m.2.document) := by
  induction ms with
  | nil => rfl
  | cons m ms ih =>
    rw [namedDocuments, canonicalMembers, h m (by simp),
      ih fun k hk => h k (List.mem_cons_of_mem m hk), List.map_cons]

/-- The members of a plain value are in their order already. -/
theorem Plain.canonical {n : Nat} {j : Json} (h : Plain n j) :
    j.document.canonical = j.document := by
  induction h with
  | null | bool | number | text => rfl
  | array h ih => rw [document, Document.canonical, canonicalItems_of_forall ih]
  | @object n ms hs h ih =>
    have hsorted : (ms.map fun m => (m.1, m.2.document)).Pairwise (·.1 < ·.1) :=
      List.pairwise_map.2 hs
    rw [document, Document.canonical, canonicalMembers_of_forall ih]
    dsimp only
    rw [byName_of_sorted hsorted, lastOfName_of_sorted hsorted, List.map_map,
      namedDocuments_eq_map]
    rfl

/-- The text is the document with nothing behind it. -/
def Holds (text : String) (d : Document) : Prop :=
  ∃ rest, Document.ofText text.toList = (d, some rest) ∧ skipBlanks rest = []

/-- Whoever reads the text reads the document. -/
theorem Holds.readText {text : String} {d : Document} (h : Holds text d) {α : Type}
    (reader : Document → Except Refusal α) : readText reader text.toList = reader d := by
  obtain ⟨rest, htext, hrest⟩ := h
  rw [Document.readText, htext]
  dsimp only
  rw [Option.map_some, hrest]
  cases reader d <;> rfl

/-- A shallow value is what its text is, in either layout. -/
theorem Shallow.holds {n : Nat} {j : Json} (h : Shallow n j) {print : Json → String}
    (hprint : print ∈ [Json.compact, Json.pretty]) : Holds (print j) j.document := by
  have hspell (l : Layout) : Document.ofText (j.spell l 0) = (j.document, some []) := by
    have hvalue := h.reads (l := l) 0 [] [] (fuel (j.spell l 0)) (by simp) (by simp [Number.Stops])
      (by rw [fuel]; omega)
    rwa [List.nil_append, List.append_nil] at hvalue
  rw [List.mem_pair] at hprint
  refine ⟨[], ?_, rfl⟩
  obtain rfl | rfl := hprint
  · rw [compact, String.toList_ofList, compactChars_eq_spell j 0, hspell]
  · rw [pretty, String.toList_ofList, prettyChars_eq_spell j 0, hspell]

theorem ok_of_readText {α : Type} {reader : Document → Except Refusal α} {cs : List Char} {x : α}
    (h : readText reader cs = .ok x) : ∃ d, reader d = .ok x := by
  unfold readText at h
  dsimp only at h
  split at h
  · cases h
  · rename_i y hy
    split at h
    · cases h
    · cases h
      exact ⟨_, hy⟩

theorem readText_compact {n : Nat} {j : Json} (h : Shallow n j) {α : Type}
    (reader : Document → Except Refusal α) :
    readText reader j.compact.toList = reader j.document :=
  (h.holds List.mem_cons_self).readText reader

theorem readText_pretty {n : Nat} {j : Json} (h : Shallow n j) {α : Type}
    (reader : Document → Except Refusal α) :
    readText reader j.pretty.toList = reader j.document :=
  (h.holds (List.mem_cons_of_mem _ List.mem_cons_self)).readText reader

end LongMode.Json

import LongMode.Proofs.Encoding.Named
import LongMode.Proofs.Text.Digits
import LongMode.Register.Name
/-!
Which register a name stands for. Without the blanks around it and in upper case, a name that some
register is called by stands for a register called so. Apart from these names, the number of an MMX or
vector register is read with a plus sign or with zeros in front; nothing else is a name.
-/

namespace LongMode.Register

open Digits

variable {r s : Register} {bank : Bank} {width : Width} {cs : List Char} {n : Nat}

/-- What a name is looked up by: the name without the blanks around it and in upper case. -/
def key (name : String) : String := String.ofList (Text.upper (Text.trim name.toList))

def letters (r : Register) : List Char :=
  match r.bank with
  | .general => []
  | .mmx => ['M', 'M']
  | .sse => if r.width = .ymm then ['Y', 'M', 'M'] else ['X', 'M', 'M']

/-- The register's letters, and behind them its number with a plus sign or zeros in front. -/
def Respelled (r : Register) (name : String) : Prop :=
  r.bank ≠ .general ∧ ∃ plus zeros, (plus = true ∨ 0 < zeros) ∧
    name.toList = r.letters ++ (sign plus ++ (List.replicate zeros '0' ++ Nat.toDigits 10 r.code))

/-- The register's letters, and behind them a text that is read as its number. -/
def Numbered (r : Register) (name : String) : Prop :=
  r.bank ≠ .general ∧ ∃ text, name.toList = r.letters ++ text ∧ read? 10 256 text = some r.code.val

def tableNames : List String :=
  highNames.toList ++ byteNames.toList ++ wordNames.toList ++ dwordNames.toList ++
    qwordNames.toList

def names : List String :=
  tableNames ++ (List.range 8).map (fun n => "MM" ++ toString n) ++
    (List.range 16).map (fun n => "XMM" ++ toString n) ++
    (List.range 16).map fun n => "YMM" ++ toString n

/-! Names in tables. -/

def ofTable {k : Nat} (table : Vector String k) (make : Fin k → Register) (name : String) :
    Option Register := (indexIn? table name).map make

/-- The high bytes have the codes behind those of the first four registers. -/
theorem highCode_lt (i : Fin 4) : i.val + 4 < 16 := by omega

def ofTables (name : String) : Option Register :=
  ofTable highNames (fun i => ⟨.general, ⟨i + 4, highCode_lt i⟩, .byte, false⟩) name
    <|> ofTable byteNames (fun i => ⟨.general, i, .byte, 4 ≤ i.val⟩) name
    <|> ofTable wordNames (general · .word) name
    <|> ofTable dwordNames (general · .dword) name
    <|> ofTable qwordNames (general · .qword) name

def ofNumber (letters : List Char) (bank : Bank) (width : Width) (name : String) :
    Option Register :=
  (number? letters name.toList).bind fun n => (ofCode bank n width true).toOption

def ofNumbers (name : String) : Option Register :=
  ofNumber ['Y', 'M', 'M'] .sse .ymm name
    <|> ofNumber ['X', 'M', 'M'] .sse .xmm name
    <|> ofNumber ['M', 'M'] .mmx .qword name

theorem ofName?_eq (name : String) :
    ofName? name = (ofTables (key name)).or (ofNumbers (key name)) := by
  unfold ofName? ofTables ofNumbers ofNumber ofTable key
  simp only [String.toList_ofList, Option.orElse_eq_orElse, Option.orElse_eq_or, Option.or_assoc]

theorem indexIn?_eq_some {k : Nat} {table : Vector String k} {name : String} {i : Fin k}
    (h : indexIn? table name = some i) : table.get i = name := by
  rcases table with ⟨table, rfl⟩
  unfold indexIn? Vector.finIdxOf? at h
  rw [Option.map_eq_some_iff] at h
  rcases h with ⟨j, hj, rfl⟩
  exact (Array.finIdxOf?_eq_some_iff.1 hj).1

theorem isSome_indexIn? {k : Nat} {table : Vector String k} {name : String} :
    (indexIn? table name).isSome = true ↔ name ∈ table.toList := by
  rcases table with ⟨table, rfl⟩
  unfold indexIn? Vector.finIdxOf?
  rw [Option.isSome_map, Array.isSome_finIdxOf?]
  simp

theorem mnemonic_mem_tableNames (h : r.bank = .general) : r.mnemonic ∈ tableNames := by
  have hall : ∀ (code : Fin 16) (rex : Bool),
      Register.mnemonic ⟨.general, code, r.width, rex⟩ ∈ tableNames := by
    cases r.width <;> decide
  rcases r with ⟨bank, code, width, rex⟩
  cases h
  exact hall code rex

theorem isSome_ofTables {name : String} :
    (ofTables name).isSome = true ↔ name ∈ tableNames := by
  simp only [ofTables, ofTable, tableNames, Option.orElse_eq_orElse, Option.orElse_eq_or,
    Option.isSome_or, Option.isSome_map, Bool.or_eq_true, isSome_indexIn?, List.mem_append, or_assoc]

theorem mnemonic_of_ofTables {name : String} (h : ofTables name = some r) :
    r.bank = .general ∧ r.mnemonic = name := by
  have htable {k : Nat} {table : Vector String k} {make : Fin k → Register}
      (hmake : ∀ i, (make i).bank = .general ∧ (make i).mnemonic = table.get i)
      (h : ofTable table make name = some r) : r.bank = .general ∧ r.mnemonic = name := by
    rcases Option.map_eq_some_iff.1 h with ⟨i, hi, rfl⟩
    rw [← indexIn?_eq_some hi]
    exact hmake i
  simp only [ofTables, Option.orElse_eq_orElse, Option.orElse_eq_or, Option.or_eq_some_iff] at h
  rcases h with h | ⟨-, h | ⟨-, h | ⟨-, h | ⟨-, h⟩⟩⟩⟩
  · exact htable (by decide) h
  · exact htable (by decide) h
  · exact htable (fun i => ⟨rfl, rfl⟩) h
  · exact htable (fun i => ⟨rfl, rfl⟩) h
  · exact htable (fun i => ⟨rfl, rfl⟩) h

/-! Names with a number. -/

theorem number?_eq_some_iff {letters : List Char} : number? letters cs = some n ↔
    ∃ text, cs = letters ++ text ∧ read? 10 256 text = some n := by
  unfold number?
  split_ifs with h
  · rcases List.isPrefixOf_iff_prefix.1 h with ⟨text, rfl⟩
    rw [List.drop_left]
    constructor
    · intro hn
      exact ⟨text, rfl, hn⟩
    · rintro ⟨other, hother, hn⟩
      rwa [List.append_cancel_left hother]
  · refine ⟨nofun, ?_⟩
    rintro ⟨text, rfl, -⟩
    exact absurd (List.isPrefixOf_iff_prefix.2 (List.prefix_append letters text)) h

theorem ofCode_eq_ok_iff {rex : Bool} : ofCode bank n width rex = .ok r ↔
    (r.bank = bank ∧ r.width = width ∧ r.rex = rex) ∧ r.Exists ∧ r.code.val = n := by
  rcases r with ⟨bank', code, width', rex'⟩
  unfold ofCode Exists
  split_ifs with h
  · constructor
    · intro hr
      cases hr
      exact ⟨⟨rfl, rfl, rfl⟩, h, rfl⟩
    · rintro ⟨⟨rfl, rfl, rfl⟩, -, rfl⟩
      rfl
  · refine ⟨nofun, ?_⟩
    rintro ⟨⟨rfl, rfl, rfl⟩, hexists, rfl⟩
    exact absurd hexists h

theorem ofNumber_eq_some_iff {letters : List Char} {name : String} :
    ofNumber letters bank width name = some r ↔
      (r.bank = bank ∧ r.width = width ∧ r.rex = true) ∧ r.Exists ∧
        ∃ text, name.toList = letters ++ text ∧ read? 10 256 text = some r.code.val := by
  unfold ofNumber
  rw [Option.bind_eq_some_iff]
  have hcode (n : Nat) : (ofCode bank n width true).toOption = some r ↔
      ofCode bank n width true = .ok r := by
    cases ofCode bank n width true <;> simp [Except.toOption]
  simp only [hcode, ofCode_eq_ok_iff, number?_eq_some_iff]
  constructor
  · rintro ⟨n, hread, hr, hexists, rfl⟩
    exact ⟨hr, hexists, hread⟩
  · rintro ⟨hr, hexists, hread⟩
    exact ⟨r.code.val, hread, hr, hexists, rfl⟩

theorem numbered_of_ofNumbers {name : String} (h : ofNumbers name = some r) :
    r.Exists ∧ r.Numbered name := by
  simp only [ofNumbers, Option.orElse_eq_orElse, Option.orElse_eq_or, Option.or_eq_some_iff,
    ofNumber_eq_some_iff] at h
  rcases h with h | ⟨-, h | ⟨-, h⟩⟩ <;> rcases h with ⟨⟨hbank, hwidth, -⟩, hexists, hread⟩ <;>
    exact ⟨hexists, by simp [hbank], by simpa [letters, hbank, hwidth] using hread⟩

theorem isSome_ofNumber {letters : List Char} {name : String} {code : Fin 16}
    (hcode : code.val < bank.size)
    (hread : ∃ text, name.toList = letters ++ text ∧ read? 10 256 text = some code.val) :
    (ofNumber letters bank width name).isSome = true := by
  have hsome : ofNumber letters bank width name = some ⟨bank, code, width, true⟩ :=
    ofNumber_eq_some_iff.2 ⟨⟨rfl, rfl, rfl⟩, hcode, hread⟩
  rw [hsome]
  rfl

theorem isSome_ofNumbers {name : String} (hexists : r.Exists) (h : r.Numbered name) :
    (ofNumbers name).isSome = true := by
  rcases r with ⟨bank, code, width, rex⟩
  rcases h with ⟨hbank, hread⟩
  simp only [ofNumbers, Option.orElse_eq_orElse, Option.orElse_eq_or, Option.isSome_or,
    Bool.or_eq_true]
  cases bank with
  | general => exact absurd rfl hbank
  | mmx => exact .inr (.inr (isSome_ofNumber hexists hread))
  | sse =>
    by_cases hwidth : width = .ymm
    · simp only [letters, if_pos hwidth] at hread
      exact .inl (isSome_ofNumber hexists hread)
    · simp only [letters, if_neg hwidth] at hread
      exact .inr (.inl (isSome_ofNumber hexists hread))

/-! What a number is spelled like. -/

theorem toList_mnemonic (h : r.bank ≠ .general) :
    r.mnemonic.toList = r.letters ++ Nat.toDigits 10 r.code := by
  unfold mnemonic letters
  cases hbank : r.bank with
  | general => exact absurd hbank h
  | mmx => simp
  | sse => split_ifs <;> simp

/-- A number below the bound is read from its digits, with or without a plus sign and zeros. -/
theorem read?_eq_code_iff {text : List Char} (code : Fin 16) :
    read? 10 256 text = some code.val ↔
      ∃ plus zeros, text = sign plus ++ (List.replicate zeros '0' ++ Nat.toDigits 10 code) := by
  rw [read?_eq_some_iff (by decide)]
  constructor
  · rintro ⟨⟨plus, ds, rfl, hds⟩, -⟩
    rcases hds.eq_padded with ⟨zeros, rfl⟩
    exact ⟨plus, zeros, rfl⟩
  · rintro ⟨plus, zeros, rfl⟩
    exact ⟨⟨plus, _, rfl, denotes_padded (by decide) (by decide) zeros code⟩, by omega⟩

theorem numbered_iff {name : String} (h : r.bank ≠ .general) :
    r.Numbered name ↔ r.mnemonic = name ∨ r.Respelled name := by
  unfold Numbered Respelled
  simp only [read?_eq_code_iff, ← String.toList_inj, toList_mnemonic h]
  constructor
  · rintro ⟨-, text, htext, plus, zeros, rfl⟩
    by_cases hplain : plus = true ∨ 0 < zeros
    · exact .inr ⟨h, plus, zeros, hplain, htext⟩
    · left
      obtain ⟨rfl, rfl⟩ : plus = false ∧ zeros = 0 := by simpa using hplain
      exact htext.symm
  · rintro (hname | ⟨-, plus, zeros, -, hname⟩)
    · exact ⟨h, _, hname.symm, false, 0, rfl⟩
    · exact ⟨h, _, hname, plus, zeros, rfl⟩

/-- A respelled name is longer than the name itself. -/
theorem Respelled.ne_mnemonic {name : String} (h : r.Respelled name) : r.mnemonic ≠ name := by
  rcases h with ⟨hbank, plus, zeros, hplain, hname⟩
  intro heq
  have hlength := congrArg List.length hname
  rw [← heq, toList_mnemonic hbank] at hlength
  cases plus <;> simp [sign] at hlength hplain <;> omega

theorem letters_cases (h : r.bank ≠ .general) :
    r.letters = ['M', 'M'] ∨ r.letters = ['X', 'M', 'M'] ∨ r.letters = ['Y', 'M', 'M'] := by
  unfold letters
  cases hbank : r.bank with
  | general => exact absurd hbank h
  | mmx => exact .inl rfl
  | sse =>
    right
    dsimp only
    split_ifs
    · exact .inr rfl
    · exact .inl rfl

/-- Different letters begin in different ways. -/
theorem letters_inj (hr : r.bank ≠ .general) (hs : s.bank ≠ .general) {left right : List Char}
    (h : r.letters ++ left = s.letters ++ right) : r.letters = s.letters := by
  rcases letters_cases hr with hr | hr | hr <;> rcases letters_cases hs with hs | hs | hs <;>
    rw [hr, hs] at h ⊢ <;> cases h

/-- A name stands for registers of one name only. -/
theorem Numbered.unique {name : String} (hr : r.Numbered name) (hs : s.Numbered name) :
    r.mnemonic = s.mnemonic := by
  rcases hr with ⟨hrbank, left, hleft, hrcode⟩
  rcases hs with ⟨hsbank, right, hright, hscode⟩
  have hletters := letters_inj hrbank hsbank (hleft.symm.trans hright)
  rw [hleft, hletters] at hright
  rw [List.append_cancel_left hright, hscode] at hrcode
  rw [← String.toList_inj, toList_mnemonic hrbank, toList_mnemonic hsbank, hletters,
    Option.some.inj hrcode]

/-! All names. -/

theorem mem_names_iff {name : String} :
    name ∈ names ↔ ∃ r : Register, r.Exists ∧ r.mnemonic = name := by
  unfold names
  simp only [List.mem_append, List.mem_map, List.mem_range]
  constructor
  · rintro (((htable | ⟨n, hn, rfl⟩) | ⟨n, hn, rfl⟩) | ⟨n, hn, rfl⟩)
    · rcases Option.isSome_iff_exists.1 (isSome_ofTables.2 htable) with ⟨r, hr⟩
      rcases mnemonic_of_ofTables hr with ⟨hbank, hname⟩
      exact ⟨r, exists_of_general hbank, hname⟩
    · exact ⟨⟨.mmx, ⟨n, by omega⟩, .qword, true⟩, hn, rfl⟩
    · exact ⟨⟨.sse, ⟨n, hn⟩, .xmm, true⟩, hn, rfl⟩
    · exact ⟨⟨.sse, ⟨n, hn⟩, .ymm, true⟩, hn, rfl⟩
  · rintro ⟨r, hexists, rfl⟩
    rcases r with ⟨bank, code, width, rex⟩
    cases bank with
    | general => exact .inl (.inl (.inl (mnemonic_mem_tableNames rfl)))
    | mmx => exact .inl (.inl (.inr ⟨code, hexists, rfl⟩))
    | sse =>
      by_cases hwidth : width = .ymm
      · subst hwidth
        exact .inr ⟨code, hexists, rfl⟩
      · refine .inl (.inr ⟨code, hexists, ?_⟩)
        simp [mnemonic, hwidth]

/-- A register whose name is looked up is found. -/
theorem isSome_ofName? {name : String} (hexists : r.Exists)
    (h : r.mnemonic = key name ∨ r.Respelled (key name)) : (ofName? name).isSome = true := by
  rw [ofName?_eq, Option.isSome_or, Bool.or_eq_true]
  by_cases hbank : r.bank = .general
  · left
    rcases h with hname | hrespelled
    · rw [isSome_ofTables, ← hname]
      exact mnemonic_mem_tableNames hbank
    · exact absurd hbank hrespelled.1
  · right
    exact isSome_ofNumbers hexists ((numbered_iff hbank).2 h)

/-- The register that is found is called by the name, if any register is. -/
theorem ofName?_eq_some {name : String} (h : ofName? name = some r) : r.Exists ∧
    (key name ∈ names ∧ r.mnemonic = key name ∨ key name ∉ names ∧ r.Respelled (key name)) := by
  rw [ofName?_eq, Option.or_eq_some_iff] at h
  rcases h with h | ⟨hnone, h⟩
  · rcases mnemonic_of_ofTables h with ⟨hbank, hname⟩
    have hexists := exists_of_general hbank
    exact ⟨hexists, .inl ⟨mem_names_iff.2 ⟨r, hexists, hname⟩, hname⟩⟩
  · rcases numbered_of_ofNumbers h with ⟨hexists, hnumbered⟩
    refine ⟨hexists, ?_⟩
    rcases (numbered_iff hnumbered.1).1 hnumbered with hname | hrespelled
    · exact .inl ⟨mem_names_iff.2 ⟨r, hexists, hname⟩, hname⟩
    · refine .inr ⟨?_, hrespelled⟩
      -- a register of this name would have been found in a table, or is called as this one is
      intro hmem
      rcases mem_names_iff.1 hmem with ⟨s, -, hname⟩
      by_cases hbank : s.bank = .general
      · have htable := mnemonic_mem_tableNames hbank
        rw [hname, ← isSome_ofTables, hnone] at htable
        cases htable
      · have hother := (numbered_iff hbank).2 (.inl hname)
        exact hrespelled.ne_mnemonic ((hnumbered.unique hother).trans hname)

/-- A name is found exactly if, without the blanks around it and in upper case, a register is called
so, or is called so but for a plus sign or zeros in front of its number. The register that is found is
called by the name in the first case and not in the second. -/
theorem ofName?_parses (name : String) :
    ((∃ r, ofName? name = some r) ↔
      key name ∈ names ∨ ∃ r : Register, r.Exists ∧ r.Respelled (key name)) ∧
    (∀ r, ofName? name = some r → r.Exists ∧
      (key name ∈ names ∧ r.mnemonic = key name ∨ key name ∉ names ∧ r.Respelled (key name))) ∧
    ∀ s, s ∈ names ↔ ∃ r : Register, r.Exists ∧ r.mnemonic = s := by
  refine ⟨⟨?_, ?_⟩, fun r => ofName?_eq_some, fun s => mem_names_iff⟩
  · rintro ⟨r, hr⟩
    rcases ofName?_eq_some hr with ⟨hexists, ⟨hmem, -⟩ | ⟨-, hrespelled⟩⟩
    · exact .inl hmem
    · exact .inr ⟨r, hexists, hrespelled⟩
  · rw [← Option.isSome_iff_exists]
    rintro (hmem | ⟨r, hexists, hrespelled⟩)
    · rcases mem_names_iff.1 hmem with ⟨r, hexists, hname⟩
      exact isSome_ofName? hexists (.inl hname)
    · exact isSome_ofName? hexists (.inr hrespelled)

/-- A plus sign in front of the number is passed over. -/
theorem signedNumber_parses : ofName? " mm+5" = some ⟨.mmx, 5, .qword, true⟩ ∧
    key " mm+5" ∉ names ∧ Respelled ⟨.mmx, 5, .qword, true⟩ (key " mm+5") := by
  have hread : ofName? " mm+5" = some ⟨.mmx, 5, .qword, true⟩ := by decide +kernel
  refine ⟨hread, ?_⟩
  rcases ((ofName?_parses " mm+5").2.1 _ hread).2 with ⟨-, hname⟩ | hrespelled
  · exact absurd hname (by decide)
  · exact hrespelled

end LongMode.Register

import LongMode.Proofs.Text.Digits
/-!
The texts that are read as a 64-bit number. Without the blanks around it such a text is decimal, or
hexadecimal behind a marker, with underscores anywhere among its digits. One plus sign in front of the
first digit is read as well, also behind the marker; every other text is refused.
-/

namespace LongMode.Numeral

open Digits

variable {plus : Bool} {base n : Nat} {c : Char} {text body ds : List Char} {v : UInt64}

/-- Digits that denote `n` with underscores among them, or in front of them, and behind a plus sign if
there is one. -/
def Written (plus : Bool) (base : Nat) (text : List Char) (n : Nat) : Prop :=
  ∃ ds, text.filter (· != '_') = sign plus ++ ds ∧ Denotes base ds n

/-- A decimal number, or a hexadecimal one behind a marker. -/
def Number (plus : Bool) : List Char → Nat → Prop := Marked (Written plus 10) (Written plus 16)

def spelled? (body : List Char) : Option Nat :=
  match afterMarker? body with
  | some digits => read? 16 UInt64.size (digits.filter (· != '_'))
  | none => read? 10 UInt64.size (body.filter (· != '_'))

theorem readWord_eq (text : List Char) : readWord text = match spelled? (Text.trim text) with
    | some n => .ok (UInt64.ofNat n)
    | none => .error (.notANumber (String.ofList (Text.trim text))) := rfl

/-- The characters of a written number: underscores, digits and the plus sign. -/
theorem Written.mem (h16 : base ≤ 16) (h : Written plus base text n) (hc : c ∈ text) :
    c = '_' ∨ c ∈ sign plus ∨ (value? c).isSome = true := by
  rcases h with ⟨ds, hds, hn⟩
  by_cases hunder : c = '_'
  · exact .inl hunder
  · right
    have hmem : c ∈ text.filter (· != '_') := by simp [hc, hunder]
    rw [hds, List.mem_append] at hmem
    exact hmem.imp_right (hn.value? h16 c)

/-- A plus sign is in the text exactly where it is said to be. -/
theorem Written.plus_mem_iff (h16 : base ≤ 16) (h : Written plus base text n) :
    '+' ∈ text ↔ plus = true := by
  constructor
  · intro hmem
    rcases h.mem h16 hmem with hunder | hsign | hvalue
    · cases hunder
    · cases plus with
      | true => rfl
      | false => cases hsign
    · cases hvalue
  · rintro rfl
    rcases h with ⟨ds, hds, -⟩
    have hmem : '+' ∈ text.filter (· != '_') := by simp [hds, sign]
    exact (List.mem_filter.1 hmem).1

theorem Number.plus_mem_iff (h : Number plus text n) : '+' ∈ text ↔ plus = true := by
  cases h with
  | bare h => exact h.plus_mem_iff (by decide)
  | marked hx h =>
    rw [← h.plus_mem_iff (by decide)]
    rcases hx with rfl | rfl <;> simp

/-- The letter of a marker is no decimal digit. -/
theorem Written.not_marker {x : Char} (hx : x = 'x' ∨ x = 'X') :
    ¬ Written plus 10 ('0' :: x :: text) n := by
  intro h
  have hmem := h.mem (c := x) (by decide) (by simp)
  rcases hx with rfl | rfl <;> cases plus <;> simp [sign, value?] at hmem

theorem number_iff : Number plus text n ↔
    (∃ ds, afterMarker? text = some ds ∧ Written plus 16 ds n) ∨
      afterMarker? text = none ∧ Written plus 10 text n :=
  marked_iff fun _ _ hx => Written.not_marker hx

theorem exists_written_iff (h16 : base ≤ 16) :
    read? base UInt64.size (text.filter (· != '_')) = some n ↔
      (∃ plus, Written plus base text n) ∧ n < UInt64.size :=
  read?_eq_some_iff h16

theorem spelled?_eq_some_iff :
    spelled? body = some n ↔ (∃ plus, Number plus body n) ∧ n < UInt64.size := by
  unfold spelled?
  simp only [number_iff]
  cases afterMarker? body with
  | some ds => simpa using @exists_written_iff 16 n ds (by decide)
  | none => simpa using @exists_written_iff 10 n body (by decide)

theorem readWord_eq_ok_iff :
    readWord text = .ok v ↔ ∃ plus, Number plus (Text.trim text) v.toNat := by
  have hv : v.toNat < UInt64.size := v.toNat_lt
  rw [readWord_eq]
  have hspelled : spelled? (Text.trim text) = some v.toNat ↔
      ∃ plus, Number plus (Text.trim text) v.toNat := by
    rw [spelled?_eq_some_iff]
    exact and_iff_left hv
  rw [← hspelled]
  cases hs : spelled? (Text.trim text) with
  | none => simp
  | some n =>
    have hn := (spelled?_eq_some_iff.1 hs).2
    constructor
    · intro h
      cases h
      exact congrArg some (UInt64.toNat_ofNat_of_lt' hn).symm
    · intro h
      cases h
      exact congrArg Except.ok UInt64.ofNat_toNat

theorem map_toLower_lowerHex (n : Nat) : (lowerHex n).map Char.toLower = lowerHex n := by
  have hdigit : ∀ d < 16, (Nat.digitChar d).toLower = Nat.digitChar d := by decide
  unfold lowerHex
  induction n using Nat.strongRecOn with
  | _ n ih =>
    rw [Nat.toDigits_eq_if (by decide)]
    split_ifs with h
    · rw [List.map_singleton, hdigit n h]
    · rw [List.map_append, ih (n / 16) (by omega), List.map_singleton, hdigit _ (by omega)]

/-- A text is read as `v` exactly if it spells `v`, and a text that spells no 64-bit number is refused
with the text itself. The spellings without a plus sign are those in which none occurs. A number is
read back as it was, from its decimal digits and from its hexadecimal ones behind the marker. -/
theorem readWord_grammar (text : List Char) :
    (∀ v : UInt64, readWord text = .ok v ↔ ∃ plus, Number plus (Text.trim text) v.toNat) ∧
    (∀ v : UInt64, Number false (Text.trim text) v.toNat ↔
      readWord text = .ok v ∧ '+' ∉ Text.trim text) ∧
    (readWord text = .error (.notANumber (String.ofList (Text.trim text))) ↔
      ∀ plus n, Number plus (Text.trim text) n → 2 ^ 64 ≤ n) ∧
    ∀ v : UInt64, readWord (Nat.toDigits 10 v.toNat) = .ok v ∧
      readWord (prefixedHex v.toNat).toList = .ok v := by
  refine ⟨fun v => readWord_eq_ok_iff, fun v => ?unsigned, ?refused, fun v => ⟨?decimal, ?hex⟩⟩
  case unsigned =>
    rw [readWord_eq_ok_iff]
    constructor
    · intro h
      exact ⟨⟨false, h⟩, by simp [h.plus_mem_iff]⟩
    · rintro ⟨⟨plus, h⟩, hplus⟩
      cases plus with
      | false => exact h
      | true => exact absurd (h.plus_mem_iff.2 rfl) hplus
  case refused =>
    rw [readWord_eq]
    cases hs : spelled? (Text.trim text) with
    | none =>
      simp only [true_iff]
      intro plus n h
      by_contra hlt
      have hsome := spelled?_eq_some_iff.2 ⟨⟨plus, h⟩, show n < UInt64.size from not_le.1 hlt⟩
      rw [hs] at hsome
      cases hsome
    | some n =>
      rcases spelled?_eq_some_iff.1 hs with ⟨⟨plus, h⟩, hn⟩
      simp only [reduceCtorEq, false_iff, not_forall]
      exact ⟨plus, n, h, not_le.2 hn⟩
  case decimal => exact readWord_of_spells (.decimal 0)
  case hex =>
    unfold prefixedHex
    rw [String.toList_ofList]
    exact readWord_of_spells (.hex (.inl rfl) 0 (map_toLower_lowerHex _))

/-- A plus sign behind the marker is passed over. -/
theorem signedHex_read : readWord "0x+5".toList = .ok 5 ∧
    ∀ v : UInt64, ¬ Number false (Text.trim "0x+5".toList) v.toNat := by
  refine ⟨rfl, ?_⟩
  intro v h
  have hunsigned := ((readWord_grammar "0x+5".toList).2.1 v).1 h
  exact absurd hunsigned.2 (by decide)

end LongMode.Numeral

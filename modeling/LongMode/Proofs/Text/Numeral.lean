import LongMode.Text.Numeral
import Mathlib.Data.List.TakeWhile
import Mathlib.Tactic
/-!
Numbers read back from their digits, in decimal or behind a marker in hexadecimal, with zeros in front
or without, and in letters of either case.
-/

namespace LongMode

namespace Text

theorem trim_eq_self {text : List Char} (h : ∀ c ∈ text, isBlank c = false) : trim text = text := by
  have hdrop (cs : List Char) (hcs : ∀ c ∈ cs, c ∈ text) : cs.dropWhile isBlank = cs := by
    refine List.dropWhile_eq_self_iff.2 fun hpos => ?_
    simp [h _ (hcs _ (List.getElem_mem hpos))]
  rw [trim, hdrop text fun _ => id, hdrop _ fun c => List.mem_reverse.1, List.reverse_reverse]

end Text

namespace Digits

theorem forall_char_le {n : Nat} {P : Char → Prop} (h : ∀ k ≤ n, P (Char.ofNat k)) {c : Char}
    (hc : c.toNat ≤ n) : P c := by
  have hp := h c.toNat hc
  rwa [Char.ofNat_toNat] at hp

/-- What holds of the characters up to `f` holds of all digits. -/
theorem forall_digit {P : Char → Prop} (h : ∀ k ≤ 'f'.toNat, P (Char.ofNat k)) {c : Char}
    (hc : (value? c).isSome = true) : P c := by
  apply forall_char_le h
  unfold value? at hc
  split_ifs at hc with h0 ha hA
  · exact (UInt32.le_iff_toNat_le.1 h0.2).trans (by decide)
  · exact UInt32.le_iff_toNat_le.1 ha.2
  · exact (UInt32.le_iff_toNat_le.1 hA.2).trans (by decide)
  · cases hc

theorem value?_digitChar {d : Nat} (h : d < 16) : value? (Nat.digitChar d) = some d := by
  have hall : ∀ d < 16, value? (Nat.digitChar d) = some d := by decide
  exact hall d h

/-- The case of a letter does not matter. -/
theorem value?_toLower (c : Char) : value? c.toLower = value? c := by
  by_cases hupper : 'A' ≤ c ∧ c ≤ 'Z'
  · exact forall_char_le (n := 'Z'.toNat) (P := fun c => value? c.toLower = value? c) (by decide)
      (UInt32.le_iff_toNat_le.1 hupper.2)
  · have hsame : c.toLower = c := by
      unfold Char.toLower
      rw [dif_neg]
      exact hupper
    rw [hsame]

theorem value?_toUpper (c : Char) : value? c.toUpper = value? c := by
  by_cases hlower : 'a' ≤ c ∧ c ≤ 'z'
  · exact forall_char_le (n := 'z'.toNat) (P := fun c => value? c.toUpper = value? c) (by decide)
      (UInt32.le_iff_toNat_le.1 hlower.2)
  · have hsame : c.toUpper = c := by
      unfold Char.toUpper
      rw [dif_neg]
      exact hlower
    rw [hsame]

theorem continue?_map {f : Char → Char} (hf : ∀ c, value? (f c) = value? c) (base n : Nat)
    (ds : List Char) : continue? base n (ds.map f) = continue? base n ds := by
  induction ds generalizing n with
  | nil => rfl
  | cons c ds ih => simp only [List.map_cons, continue?, hf, ih]

theorem continue?_append (base n : Nat) (left right : List Char) :
    continue? base n (left ++ right) =
      (continue? base n left).bind fun m => continue? base m right := by
  induction left generalizing n with
  | nil => rfl
  | cons c left ih =>
    rw [List.cons_append, continue?, continue?]
    cases value? c with
    | none => rfl
    | some d =>
      dsimp only
      split_ifs
      · exact ih _
      · rfl

theorem continue?_zeros {base : Nat} (hb : 0 < base) (k : Nat) :
    continue? base 0 (List.replicate k '0') = some 0 := by
  induction k with
  | zero => rfl
  | succ k ih =>
    rw [List.replicate_succ, continue?, show value? '0' = some 0 from rfl]
    dsimp only
    rw [if_pos hb, Nat.zero_mul, Nat.zero_add]
    exact ih

theorem continue?_toDigits {base : Nat} (hb : 1 < base) (h16 : base ≤ 16) (n : Nat) :
    continue? base 0 (Nat.toDigits base n) = some n := by
  have hlast (m d : Nat) (hd : d < base) :
      continue? base m [Nat.digitChar d] = some (m * base + d) := by
    rw [continue?, value?_digitChar (by omega)]
    dsimp only
    rw [if_pos hd]
    rfl
  induction n using Nat.strongRecOn with
  | _ n ih =>
    rw [Nat.toDigits_eq_if hb]
    split_ifs with h
    · rw [hlast 0 n h, Nat.zero_mul, Nat.zero_add]
    · have hn : n / base < n := Nat.div_lt_self (by omega) hb
      rw [continue?_append, ih _ hn, Option.bind_some, hlast _ _ (Nat.mod_lt n (by omega)),
        Nat.div_add_mod']

theorem toList_prefixedUpperHex (n : Nat) :
    (prefixedUpperHex n).toList = '0' :: 'x' :: upperHex n := String.toList_ofList

/-- Numbers with the same digits are the same. -/
theorem upperHex_inj {n m : Nat} (h : upperHex n = upperHex m) : n = m := by
  have hread (k : Nat) : continue? 16 0 (upperHex k) = some k := by
    rw [upperHex, continue?_map value?_toUpper, continue?_toDigits (by decide) le_rfl]
  have hn := hread n
  rw [h, hread m] at hn
  exact (Option.some.inj hn).symm

theorem value?_of_continue? {base n m : Nat} {ds : List Char} (h : continue? base n ds = some m) :
    ∀ c ∈ ds, (value? c).isSome = true := by
  induction ds generalizing n with
  | nil => simp
  | cons c ds ih =>
    rw [continue?] at h
    cases hc : value? c with
    | none =>
      rw [hc] at h
      cases h
    | some d =>
      rw [hc] at h
      dsimp only at h
      split_ifs at h
      exact List.forall_mem_cons.2 ⟨by rw [hc]; rfl, ih h⟩

end Digits

namespace Numeral

open Digits

theorem ne_of_value? {c d : Char} (h : (value? c).isSome = true)
    (hd : value? d = none := by decide) : c ≠ d := by
  rintro rfl
  rw [hd] at h
  cases h

theorem isBlank_of_value? {c : Char} (h : (value? c).isSome = true) : Text.isBlank c = false :=
  forall_digit (P := fun c => (value? c).isSome = true → Text.isBlank c = false) (by decide) h h

theorem afterMarker?_eq_some_iff {text ds : List Char} :
    afterMarker? text = some ds ↔ ∃ x, (x = 'x' ∨ x = 'X') ∧ text = '0' :: x :: ds := by
  constructor
  · intro h
    unfold afterMarker? at h
    split at h
    · cases h
      exact ⟨'x', .inl rfl, rfl⟩
    · cases h
      exact ⟨'X', .inr rfl, rfl⟩
    · cases h
  · rintro ⟨x, rfl | rfl, rfl⟩ <;> rfl

/-- A text that means `a` as it stands, or does so in another way behind a hexadecimal marker. -/
inductive Marked {α : Type} (bare marked : List Char → α → Prop) : List Char → α → Prop
  | bare {text : List Char} {a : α} (h : bare text a) : Marked bare marked text a
  | marked {x : Char} (hx : x = 'x' ∨ x = 'X') {text : List Char} {a : α} (h : marked text a) :
    Marked bare marked ('0' :: x :: text) a

/-- Where a text as it stands never begins like a marker, a marker is taken as one. -/
theorem marked_iff {α : Type} {bare marked : List Char → α → Prop} {text : List Char} {a : α}
    (hbare : ∀ x rest, x = 'x' ∨ x = 'X' → ¬ bare ('0' :: x :: rest) a) :
    Marked bare marked text a ↔
      (∃ ds, afterMarker? text = some ds ∧ marked ds a) ∨
        afterMarker? text = none ∧ bare text a := by
  cases hmarker : afterMarker? text with
  | some ds =>
    rcases afterMarker?_eq_some_iff.1 hmarker with ⟨x, hx, rfl⟩
    constructor
    · intro h
      cases h with
      | bare h => exact absurd h (hbare x ds hx)
      | marked _ h => exact .inl ⟨ds, rfl, h⟩
    · rintro (⟨_, ⟨⟩, h⟩ | ⟨⟨⟩, -⟩)
      exact .marked hx h
  | none =>
    constructor
    · intro h
      cases h with
      | bare h => exact .inr ⟨rfl, h⟩
      | @marked x hx ds _ h =>
        have hsome : afterMarker? ('0' :: x :: ds) = some ds :=
          afterMarker?_eq_some_iff.2 ⟨x, hx, rfl⟩
        rw [hmarker] at hsome
        cases hsome
    · rintro (⟨_, ⟨⟩, -⟩ | ⟨-, h⟩)
      exact .bare h

/-- Digits alone are read as their number. -/
theorem read?_digits {base bound n : Nat} {ds : List Char} (h : continue? base 0 ds = some n)
    (hne : ds ≠ []) (hn : n < bound) : read? base bound (ds.filter (· != '_')) = some n := by
  have hvalue := value?_of_continue? h
  have hfilter : ds.filter (· != '_') = ds := by
    refine List.filter_eq_self.2 fun c hc => ?_
    rw [bne_iff_ne]
    exact ne_of_value? (hvalue c hc)
  rw [hfilter]
  unfold read?
  split
  · exact absurd rfl (ne_of_value? (d := '+') (hvalue '+' (by simp)))
  · simp [hne, h, hn]

/-- Texts that spell a number: its decimal digits, or a marker and its hexadecimal digits in letters of
either case, with any zeros in front. -/
inductive Spells (v : UInt64) : List Char → Prop
  | decimal (zeros : Nat) : Spells v (List.replicate zeros '0' ++ Nat.toDigits 10 v.toNat)
  | hex {x : Char} (hx : x = 'x' ∨ x = 'X') (zeros : Nat) {ds : List Char}
    (hds : ds.map Char.toLower = List.replicate zeros '0' ++ lowerHex v.toNat) :
    Spells v ('0' :: x :: ds)

theorem continue?_padded {base : Nat} (hb : 1 < base) (h16 : base ≤ 16) (zeros n : Nat) :
    continue? base 0 (List.replicate zeros '0' ++ Nat.toDigits base n) = some n := by
  rw [continue?_append, continue?_zeros (by omega), Option.bind_some, continue?_toDigits hb h16]

/-- A spelled number is read as what it is. -/
theorem readWord_of_spells {v : UInt64} {text : List Char} (h : Spells v text) :
    readWord text = .ok v := by
  have hv : v.toNat < UInt64.size := v.toNat_lt
  cases h with
  | decimal zeros =>
    have hnumber := continue?_padded (show 1 < 10 by decide) (by decide) zeros v.toNat
    have hne : List.replicate zeros '0' ++ Nat.toDigits 10 v.toNat ≠ [] := by
      simp [Nat.toDigits_ne_nil]
    generalize List.replicate zeros '0' ++ Nat.toDigits 10 v.toNat = ds at hnumber hne
    have hvalue := value?_of_continue? hnumber
    have hmarker : afterMarker? ds = none := by
      unfold afterMarker?
      split
      · exact absurd rfl (ne_of_value? (d := 'x') (hvalue 'x' (by simp)))
      · exact absurd rfl (ne_of_value? (d := 'X') (hvalue 'X' (by simp)))
      · rfl
    unfold readWord
    rw [Text.trim_eq_self fun c hc => isBlank_of_value? (hvalue c hc)]
    dsimp only
    rw [hmarker]
    dsimp only
    rw [read?_digits hnumber hne hv]
    exact congrArg Except.ok UInt64.ofNat_toNat
  | @hex x hx zeros ds hds =>
    have hnumber : continue? 16 0 ds = some v.toNat := by
      rw [← continue?_map value?_toLower, hds]
      exact continue?_padded (by decide) (by decide) zeros v.toNat
    have hne : ds ≠ [] := by
      rintro rfl
      simp [lowerHex, Nat.toDigits_ne_nil] at hds
    have hvalue := value?_of_continue? hnumber
    have hblank : ∀ c ∈ '0' :: x :: ds, Text.isBlank c = false := by
      intro c hc
      rcases List.mem_cons.1 hc with rfl | hc
      · decide
      · rcases List.mem_cons.1 hc with rfl | hc
        · obtain rfl | rfl := hx <;> decide
        · exact isBlank_of_value? (hvalue c hc)
    have hmarker : afterMarker? ('0' :: x :: ds) = some ds := by obtain rfl | rfl := hx <;> rfl
    unfold readWord
    rw [Text.trim_eq_self hblank]
    dsimp only
    rw [hmarker]
    dsimp only
    rw [read?_digits hnumber hne hv]
    exact congrArg Except.ok UInt64.ofNat_toNat

/-- For instance in capital letters behind a long run of zeros. -/
example : readWord "0X00001F".toList = .ok 31 := rfl

end Numeral

end LongMode

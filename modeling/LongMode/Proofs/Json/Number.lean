import LongMode.Json.Number
import LongMode.Proofs.Except
import Mathlib.Tactic
/-!
Natural numbers of 64 bits read back as they are written: their digits have no leading zero, they
are followed by nothing that would make them another number, and they are far from the largest
double. No other text is read as such a number.
-/

namespace LongMode.Json.Number

/-- The text does not go on with a number. -/
def Stops (rest : List Char) : Prop :=
  ∀ c ∈ rest.head?, isDigit c = false ∧ c ≠ '.' ∧ c ≠ 'e' ∧ c ≠ 'E'

theorem isDigit_iff (c : Char) : isDigit c = true ↔ c.isDigit = true := by
  unfold isDigit Char.isDigit
  rw [Bool.and_eq_true, Bool.and_eq_true, decide_eq_true_eq, decide_eq_true_eq, decide_eq_true_eq,
    decide_eq_true_eq]
  rfl

theorem isDigit_toDigits {n : Nat} {c : Char} (h : c ∈ Nat.toDigits 10 n) : isDigit c = true :=
  (isDigit_iff c).2 (Nat.isDigit_of_mem_toDigits (by decide) (by decide) h)

theorem value?_of_isDigit {c : Char} (h : isDigit c = true) :
    Digits.value? c = some (c.toNat - '0'.toNat) ∧ c.toNat - '0'.toNat < 10 := by
  unfold isDigit at h
  rw [Bool.and_eq_true, decide_eq_true_eq, decide_eq_true_eq] at h
  refine ⟨if_pos h, ?_⟩
  have h9 : c.toNat ≤ '9'.toNat := UInt32.le_iff_toNat_le.1 h.2
  have h0 : '9'.toNat = '0'.toNat + 9 := rfl
  omega

theorem continue?_digits {ds : List Char} (h : ∀ c ∈ ds, isDigit c = true) (n : Nat) :
    Digits.continue? 10 n ds = some (Nat.ofDigitChars 10 ds n) := by
  induction ds generalizing n with
  | nil => rfl
  | cons c rest ih =>
    obtain ⟨hv, hlt⟩ := value?_of_isDigit (h c (by simp))
    rw [Digits.continue?, hv]
    dsimp only
    rw [if_pos hlt, ih fun d hd => h d (List.mem_cons_of_mem c hd), Nat.mul_comm]
    rfl

theorem le_ofDigitChars (ds : List Char) (n : Nat) : n ≤ Nat.ofDigitChars 10 ds n := by
  induction ds generalizing n with
  | nil => exact le_rfl
  | cons c rest ih =>
    refine le_trans ?_ (ih (10 * n + (c.toNat - '0'.toNat)))
    omega

/-- Digits that stay within 64 bits are all put behind the number. -/
theorem extend_digits {ds : List Char} (h : ∀ c ∈ ds, isDigit c = true) {n : Nat}
    (hlt : Nat.ofDigitChars 10 ds n < UInt64.size) :
    extend n ds = (Nat.ofDigitChars 10 ds n, ds.length, 0) := by
  induction ds generalizing n with
  | nil => rfl
  | cons c rest ih =>
    obtain ⟨hv, -⟩ := value?_of_isDigit (h c (by simp))
    have hm : n * 10 + (c.toNat - '0'.toNat) = 10 * n + (c.toNat - '0'.toNat) := by omega
    have hrest : Nat.ofDigitChars 10 rest (10 * n + (c.toNat - '0'.toNat)) < UInt64.size := hlt
    have hle := le_ofDigitChars rest (10 * n + (c.toNat - '0'.toNat))
    rw [extend, hv, Option.getD_some, hm]
    dsimp only
    rw [if_neg (by omega), ih (fun d hd => h d (List.mem_cons_of_mem c hd)) hrest]
    rfl

theorem nearestDouble_le (n : Nat) : nearestDouble n ≤ 2 * n + 1 := by
  have hunit : Nat.pow 2 (n.log2 + 1 - 53) ≤ n + 1 := by
    rcases Nat.eq_zero_or_pos n with rfl | hn
    · decide
    · have hle : 2 ^ (n.log2 + 1 - 53) ≤ 2 ^ n.log2 :=
        Nat.pow_le_pow_right (by decide) (by omega)
      have := Nat.log2_self_le (by omega : n ≠ 0)
      change 2 ^ (n.log2 + 1 - 53) ≤ n + 1
      omega
  unfold nearestDouble
  dsimp only
  generalize Nat.pow 2 (n.log2 + 1 - 53) = unit at hunit
  have hmul := Nat.div_mul_le_self n unit
  split_ifs
  · rw [Nat.add_mul]
    omega
  · omega

/-- A number of 64 bits is far from the largest double. -/
theorem isFinite_digits {ds : List Char} (h : ∀ c ∈ ds, isDigit c = true)
    (hlt : Nat.ofDigitChars 10 ds 0 < UInt64.size) : isFinite ds [] false 0 = true := by
  have hmantissa := nearestDouble_le (Nat.ofDigitChars 10 ds 0)
  have hproduct : nearestDouble (Nat.ofDigitChars 10 ds 0) * nearestDouble 1 ≤ 2 ^ 65 * 1 :=
    Nat.mul_le_mul (by change _ < 2 ^ 64 at hlt; omega) (by decide)
  have hlarge : 2 ^ 65 * 1 < tooLarge := by decide +kernel
  have hshift : (if false = true then -((0 : Nat) : Int) else (0 : Nat)) + (0 : Nat) - (0 : Nat) = 0 := rfl
  unfold isFinite
  rw [extend_digits h hlt]
  dsimp only [extend]
  rw [hshift]
  split_ifs with h0 h308
  · rfl
  · exact absurd h308 (by decide)
  · exact decide_eq_true (lt_of_le_of_lt hproduct hlarge)

theorem span_digits {ds rest : List Char} (h : ∀ c ∈ ds, isDigit c = true)
    (hr : ∀ c ∈ rest.head?, isDigit c = false) : (ds ++ rest).span isDigit = (ds, rest) := by
  have htake : rest.takeWhile isDigit = [] ∧ rest.dropWhile isDigit = rest := by
    cases rest with
    | nil => exact ⟨rfl, rfl⟩
    | cons c rest => simp [hr c rfl]
  rw [List.span_eq_takeWhile_dropWhile, List.takeWhile_append_of_pos h,
    List.dropWhile_append_of_pos h, htake.1, htake.2, List.append_nil]

theorem digits_eq_ok {text ds rest : List Char} :
    digits text = .ok (ds, rest) ↔ text.span isDigit = (ds, rest) ∧ ds ≠ [] := by
  have hnone {more : List Char} (hspan : text.span isDigit = ([], more)) (r : Refusal) :
      .error r = (.ok (ds, rest) : Except Refusal _) ↔
        text.span isDigit = (ds, rest) ∧ ds ≠ [] := by
    refine ⟨nofun, fun ⟨heq, hne⟩ => ?_⟩
    rw [hspan] at heq
    exact absurd (congrArg Prod.fst heq).symm hne
  unfold digits
  split
  · rename_i hspan
    exact hnone hspan _
  · rename_i hspan
    exact hnone hspan _
  · rename_i hother
    rw [Except.ok.injEq]
    refine ⟨fun hspan => ⟨hspan, ?_⟩, And.left⟩
    rintro rfl
    exact hother rest hspan

theorem eq_append_of_digits {text ds rest : List Char} (h : digits text = .ok (ds, rest)) :
    text = ds ++ rest ∧ ds ≠ [] ∧ ∀ c ∈ ds, isDigit c = true := by
  obtain ⟨hspan, hne⟩ := digits_eq_ok.1 h
  rw [List.span_eq_takeWhile_dropWhile] at hspan
  cases hspan
  refine ⟨List.takeWhile_append_dropWhile.symm, hne, fun c hc => ?_⟩
  exact List.all_eq_true.1 List.all_takeWhile c hc

/-- Only zero is written with a leading zero. -/
theorem toDigits_shape (n : Nat) : Nat.toDigits 10 n = ['0'] ∨
    ∃ c ds, Nat.toDigits 10 n = c :: ds ∧ c ≠ '0' := by
  induction n using Nat.strongRecOn with
  | _ n ih =>
    rw [Nat.toDigits_eq_if (by decide)]
    split_ifs with h
    · have hdigit : ∀ d < 10, d = 0 ∧ Nat.digitChar d = '0' ∨ Nat.digitChar d ≠ '0' := by decide
      obtain ⟨-, hc⟩ | hc := hdigit n h
      · exact .inl (by rw [hc])
      · exact .inr ⟨_, [], rfl, hc⟩
    · right
      obtain h0 | ⟨c, ds, hd, hc⟩ := ih (n / 10) (by omega)
      · have := congrArg (Nat.ofDigitChars 10 · 0) h0
        rw [Nat.ofDigitChars_toDigits (by decide) (by decide)] at this
        change n / 10 = 0 at this
        omega
      · exact ⟨c, ds ++ [Nat.digitChar (n % 10)], by rw [hd]; rfl, hc⟩

theorem whole_toDigits (n : Nat) {rest : List Char} (hr : Stops rest) :
    whole (Nat.toDigits 10 n ++ rest) = .ok (Nat.toDigits 10 n, rest) := by
  have hspan := span_digits (fun c => isDigit_toDigits (n := n) (c := c)) fun c hc => (hr c hc).1
  unfold whole
  rw [digits_eq_ok.2 ⟨hspan, Nat.toDigits_ne_nil⟩]
  obtain h | ⟨c, ds, h, hc⟩ := toDigits_shape n
  · rw [h]
    rfl
  · rw [h]
    dsimp only [bind, Except.bind]
    split
    · rename_i heq
      cases heq
      exact absurd rfl hc
    · rfl

theorem fraction_of_head? {text : List Char} (h : text.head? ≠ some '.') :
    fraction text = .ok ([], text) := by
  unfold fraction
  split
  · exact absurd rfl h
  · rfl

theorem exponent_of_head? {text : List Char} (he : text.head? ≠ some 'e')
    (hE : text.head? ≠ some 'E') : exponent text = .ok (false, [], text) := by
  cases text with
  | nil => rfl
  | cons c rest =>
    refine if_neg (not_or.2 ⟨?_, ?_⟩)
    · rintro rfl
      exact he rfl
    · rintro rfl
      exact hE rfl

/-- Behind a number that has ended there is no fraction and no exponent. -/
theorem exponent_of_stops {rest : List Char} (hr : Stops rest) :
    fraction rest = .ok ([], rest) ∧ exponent rest = .ok (false, [], rest) := by
  have hpoint : rest.head? ≠ some '.' := fun h => (hr '.' h).2.1 rfl
  have he : rest.head? ≠ some 'e' := fun h => (hr 'e' h).2.2.1 rfl
  have hE : rest.head? ≠ some 'E' := fun h => (hr 'E' h).2.2.2 rfl
  exact ⟨fraction_of_head? hpoint, exponent_of_head? he hE⟩

def minus (text : List Char) : Bool × List Char :=
  match text with
  | '-' :: rest => (true, rest)
  | _ => (false, text)

theorem minus_of_head? {text : List Char} (h : text.head? ≠ some '-') :
    minus text = (false, text) := by
  unfold minus
  split
  · exact absurd rfl h
  · rfl

structure Parts where
  minus : Bool
  whole : List Char
  fraction : List Char
  negative : Bool
  exponent : List Char

def parts (text : List Char) : Except Refusal (Parts × List Char) :=
  let (signed, unsigned) := minus text
  whole unsigned >>= fun (ds, rest) => fraction rest >>= fun (fs, rest) =>
    exponent rest >>= fun (negative, es, rest) => .ok (⟨signed, ds, fs, negative, es⟩, rest)

/-- What the parts and the spelling mean, if the value is finite. -/
def Parts.value (p : Parts) (spelling : List Char) : Option Number :=
  let number (ds : List Char) : Nat := (Digits.continue? 10 0 ds).getD 0
  if isFinite p.whole p.fraction p.negative (number p.exponent) then
    some (if !p.minus && p.fraction.isEmpty && p.exponent.isEmpty then natural (number p.whole)
      else other spelling)
  else none

theorem read_eq (text : List Char) : read text = parts text >>= fun (p, rest) =>
    .ok (p.value (text.take (text.length - rest.length)), rest) := by
  unfold read parts minus
  simp only [bind_assoc]
  rfl

theorem parts_toDigits (n : Nat) {rest : List Char} (hr : Stops rest) :
    parts (Nat.toDigits 10 n ++ rest) = .ok (⟨false, Nat.toDigits 10 n, [], false, []⟩, rest) := by
  obtain ⟨hfraction, hexponent⟩ := exponent_of_stops hr
  have hminus : minus (Nat.toDigits 10 n ++ rest) = (false, Nat.toDigits 10 n ++ rest) := by
    apply minus_of_head?
    rw [List.head?_append_of_ne_nil _ Nat.toDigits_ne_nil]
    intro hhead
    have hdigit := isDigit_toDigits (List.mem_of_head? hhead)
    exact absurd hdigit (by decide)
  rw [parts, hminus]
  simp only [whole_toDigits n hr, ok_bind, hfraction, hexponent]

theorem read_toDigits {n : Nat} (hn : n < UInt64.size) {rest : List Char} (hr : Stops rest) :
    read (Nat.toDigits 10 n ++ rest) = .ok (some (.natural n), rest) := by
  have hall : ∀ c ∈ Nat.toDigits 10 n, isDigit c = true := fun c => isDigit_toDigits
  have hvalue : Nat.ofDigitChars 10 (Nat.toDigits 10 n) 0 = n :=
    Nat.ofDigitChars_toDigits (by decide) (by decide)
  have hfinite := isFinite_digits hall (by rwa [hvalue])
  have hnumber : (Digits.continue? 10 0 (Nat.toDigits 10 n)).getD 0 = n := by
    rw [continue?_digits hall, hvalue]
    rfl
  rw [read_eq, parts_toDigits n hr, ok_bind]
  change Except.ok (if isFinite (Nat.toDigits 10 n) [] false 0 = true then
    some (natural ((Digits.continue? 10 0 (Nat.toDigits 10 n)).getD 0)) else none, rest) = _
  rw [hfinite, hnumber, if_pos rfl]

/-! What is read as a natural number is that number's spelling. -/

theorem digitChar_value {c : Char} (h : isDigit c = true) :
    Nat.digitChar (c.toNat - '0'.toNat) = c := by
  obtain ⟨-, hlt⟩ := value?_of_isDigit h
  have hdigit : ∀ v < 10, (Nat.digitChar v).toNat = v + '0'.toNat := by decide
  unfold isDigit at h
  rw [Bool.and_eq_true, decide_eq_true_eq, decide_eq_true_eq] at h
  have h0 : '0'.toNat ≤ c.toNat := UInt32.le_iff_toNat_le.1 h.1
  refine Char.toNat_inj.1 ?_
  rw [hdigit _ hlt]
  omega

theorem toDigits_ofDigitChars {ds : List Char} (h : ∀ c ∈ ds, isDigit c = true) {n : Nat}
    (hn : 0 < n) : Nat.toDigits 10 (Nat.ofDigitChars 10 ds n) = Nat.toDigits 10 n ++ ds := by
  induction ds generalizing n with
  | nil => simp
  | cons c ds ih =>
    have hc := h c (by simp)
    obtain ⟨-, hlt⟩ := value?_of_isDigit hc
    rw [Nat.ofDigitChars_cons, ih (fun d hd => h d (List.mem_cons_of_mem c hd)) (by omega),
      ← Nat.toDigits_append_toDigits (by decide) hn hlt, Nat.toDigits_of_lt_base hlt,
      digitChar_value hc]
    simp

/-- The digits of a whole number are those that its value is written with. -/
theorem eq_append_of_whole {text ds rest : List Char} (h : whole text = .ok (ds, rest)) :
    text = ds ++ rest ∧ Nat.toDigits 10 (Nat.ofDigitChars 10 ds 0) = ds ∧
      ∀ c ∈ ds, isDigit c = true := by
  unfold whole at h
  obtain ⟨⟨es, more⟩, hd, h⟩ := ok_of_bind h
  obtain ⟨htext, hne, hall⟩ := eq_append_of_digits hd
  split at h
  · cases h
  · rename_i hzero
    cases h
    refine ⟨htext, ?_, hall⟩
    obtain ⟨c, es, rfl⟩ := List.exists_cons_of_ne_nil hne
    by_cases hc : c = '0'
    · subst hc
      cases es with
      | nil => rfl
      | cons d es => exact (hzero d es _ rfl).elim
    · obtain ⟨-, hlt⟩ := value?_of_isDigit (hall c (by simp))
      have hchar := digitChar_value (hall c (by simp))
      have hpos : 0 < c.toNat - '0'.toNat := by
        refine Nat.pos_of_ne_zero fun heq => hc ?_
        rw [← hchar, heq]
        rfl
      rw [Nat.ofDigitChars_cons, Nat.mul_zero, Nat.zero_add,
        toDigits_ofDigitChars (fun d hd => hall d (List.mem_cons_of_mem c hd)) hpos,
        Nat.toDigits_of_lt_base hlt, hchar]
      rfl

theorem eq_of_fraction {text rest : List Char} (h : fraction text = .ok ([], rest)) :
    rest = text := by
  unfold fraction at h
  split at h
  · exact absurd rfl (eq_append_of_digits h).2.1
  · cases h
    rfl

theorem eq_of_exponent {text rest : List Char} {negative : Bool}
    (h : exponent text = .ok (negative, [], rest)) : rest = text := by
  unfold exponent at h
  split at h
  · split at h
    · obtain ⟨⟨es, more⟩, hd, h⟩ := ok_of_bind h
      cases h
      exact absurd rfl (eq_append_of_digits hd).2.1
    · cases h
      rfl
  · cases h
    rfl

/-- A number without sign, fraction and exponent is its digits. -/
theorem eq_append_of_parts {text rest ds : List Char} {negative : Bool}
    (h : parts text = .ok (⟨false, ds, [], negative, []⟩, rest)) :
    text = Nat.toDigits 10 (Nat.ofDigitChars 10 ds 0) ++ rest ∧ ∀ c ∈ ds, isDigit c = true := by
  cases hminus : minus text with
  | mk signed unsigned =>
    rw [parts, hminus] at h
    obtain ⟨⟨ds, rest'⟩, hwhole, h⟩ := ok_of_bind h
    obtain ⟨⟨fs, rest''⟩, hfraction, h⟩ := ok_of_bind h
    obtain ⟨⟨negative, es, behind⟩, hexponent, h⟩ := ok_of_bind h
    obtain ⟨hparts, rfl⟩ := Prod.mk.inj (Except.ok.inj h)
    obtain ⟨rfl, rfl, rfl, rfl, rfl⟩ := Parts.mk.inj hparts
    obtain rfl := eq_of_fraction hfraction
    obtain rfl := eq_of_exponent hexponent
    obtain ⟨rfl, hvalue, hall⟩ := eq_append_of_whole hwhole
    refine ⟨?_, hall⟩
    unfold minus at hminus
    split at hminus
    · cases hminus
    · rw [hvalue]
      exact (Prod.mk.inj hminus).2

/-- A natural number stands at the front of a text as it is spelled. -/
theorem eq_append_of_read {text rest : List Char} {n : Nat}
    (h : read text = .ok (some (.natural n), rest)) : text = Nat.toDigits 10 n ++ rest := by
  rw [read_eq] at h
  obtain ⟨⟨p, behind⟩, hparts, h⟩ := ok_of_bind h
  obtain ⟨hvalue, rfl⟩ := Prod.mk.inj (Except.ok.inj h)
  unfold Parts.value at hvalue
  dsimp only at hvalue
  split_ifs at hvalue with hfinite hplain
  · obtain ⟨m, ds, fs, negative, es⟩ := p
    rw [Bool.and_eq_true, Bool.and_eq_true, Bool.not_eq_true', List.isEmpty_iff,
      List.isEmpty_iff] at hplain
    obtain ⟨⟨rfl, rfl⟩, rfl⟩ := hplain
    obtain ⟨htext, hall⟩ := eq_append_of_parts hparts
    rw [continue?_digits hall, Option.getD_some] at hvalue
    cases hvalue
    exact htext
  · cases hvalue

theorem eq_toDigits_of_read {text : List Char} {n : Nat}
    (h : read text = .ok (some (.natural n), [])) : text = Nat.toDigits 10 n :=
  (eq_append_of_read h).trans (List.append_nil _)

end LongMode.Json.Number

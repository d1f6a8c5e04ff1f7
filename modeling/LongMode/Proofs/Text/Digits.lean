import LongMode.Proofs.Text.Numeral
/-!
The digits of a number, said without reading them: characters with a value in the base, letters in
either case, and the number that the values denote together. Reading accepts exactly these and, in
front of them, one plus sign. Zeros in front are all in which two spellings of a number differ in a
base where letters play no part.
-/

namespace LongMode.Digits

variable {base bound n m d : Nat} {c : Char} {text ds : List Char}

/-- The character is the digit `d` of the base, a letter in either case. -/
def IsDigit (base : Nat) (c : Char) (d : Nat) : Prop := d < base ∧ c.toLower = Nat.digitChar d

instance (base : Nat) (c : Char) (d : Nat) : Decidable (IsDigit base c d) :=
  inferInstanceAs (Decidable (_ ∧ _))

/-- The text is at least one digit of the base, the digit of the highest place first, and the digits
denote `n`. -/
def Denotes (base : Nat) (text : List Char) (n : Nat) : Prop :=
  text ≠ [] ∧ ∃ values, List.Forall₂ (IsDigit base) text values ∧ Nat.ofDigits base values.reverse = n

def sign (plus : Bool) : List Char := if plus then ['+'] else []

theorem toLower_of_value? (h : value? c = some d) : c.toLower = Nat.digitChar d := by
  have hsome : (value? c).isSome = true := by rw [h]; rfl
  have hall : ∀ d ∈ value? c, c.toLower = Nat.digitChar d :=
    forall_digit (P := fun c => ∀ d ∈ value? c, c.toLower = Nat.digitChar d) (by decide) hsome
  exact hall d h

theorem isDigit_iff (h16 : base ≤ 16) : IsDigit base c d ↔ value? c = some d ∧ d < base := by
  constructor
  · rintro ⟨hd, hc⟩
    rw [← value?_toLower, hc]
    exact ⟨value?_digitChar (by omega), hd⟩
  · rintro ⟨hc, hd⟩
    exact ⟨hd, toLower_of_value? hc⟩

/-- The digit of the highest place joins the number in front of it. -/
theorem ofDigits_reverse_cons (base n d : Nat) (values : List Nat) :
    Nat.ofDigits base ((d :: values).reverse ++ [n]) =
      Nat.ofDigits base (values.reverse ++ [n * base + d]) := by
  simp only [List.reverse_cons, List.append_assoc, List.singleton_append, Nat.ofDigits_append,
    Nat.ofDigits_cons, Nat.ofDigits_nil]
  ring

theorem continue?_eq_some_iff (h16 : base ≤ 16) : continue? base n text = some m ↔
    ∃ values, List.Forall₂ (IsDigit base) text values ∧
      Nat.ofDigits base (values.reverse ++ [n]) = m := by
  induction text generalizing n with
  | nil =>
    constructor
    · intro h
      cases h
      exact ⟨[], .nil, by simp⟩
    · rintro ⟨values, hvalues, rfl⟩
      cases hvalues
      simp [continue?]
  | cons c rest ih =>
    have hfirst : continue? base n (c :: rest) = some m ↔
        ∃ d, IsDigit base c d ∧ continue? base (n * base + d) rest = some m := by
      rw [continue?]
      cases hc : value? c with
      | none => simp [isDigit_iff h16, hc]
      | some d => simp [isDigit_iff h16, hc, and_assoc]
    rw [hfirst]
    constructor
    · rintro ⟨d, hd, hrest⟩
      rcases ih.1 hrest with ⟨values, hvalues, hm⟩
      exact ⟨d :: values, .cons hd hvalues, (ofDigits_reverse_cons base n d values).trans hm⟩
    · rintro ⟨values, hvalues, hm⟩
      cases hvalues with
      | cons hd hvalues =>
        rw [ofDigits_reverse_cons] at hm
        exact ⟨_, hd, ih.2 ⟨_, hvalues, hm⟩⟩

theorem denotes_iff (h16 : base ≤ 16) :
    Denotes base text n ↔ text ≠ [] ∧ continue? base 0 text = some n := by
  unfold Denotes
  rw [continue?_eq_some_iff h16]
  simp [Nat.ofDigits_append]

theorem Denotes.value? (h16 : base ≤ 16) (h : Denotes base text n) :
    ∀ c ∈ text, (value? c).isSome = true :=
  value?_of_continue? ((denotes_iff h16).1 h).2

/-- A character that is no digit does not occur. -/
theorem Denotes.not_mem (h16 : base ≤ 16) (h : Denotes base text n)
    (hc : Digits.value? c = none := by decide) : c ∉ text := by
  intro hmem
  have hsome := h.value? h16 c hmem
  rw [hc] at hsome
  cases hsome

/-- What is read: digits, with or without a plus sign in front. -/
theorem read?_eq_some_iff (h16 : base ≤ 16) : read? base bound text = some n ↔
    (∃ plus ds, text = sign plus ++ ds ∧ Denotes base ds n) ∧ n < bound := by
  have hdigits (ds : List Char) :
      (if ds.isEmpty then none else (continue? base 0 ds).filter (· < bound)) = some n ↔
        Denotes base ds n ∧ n < bound := by
    rw [denotes_iff h16]
    cases ds with
    | nil => simp
    | cons c rest => simp [Option.filter_eq_some_iff]
  unfold read?
  split
  next rest =>
    rw [hdigits]
    refine and_congr_left fun _ => ⟨fun h => ⟨true, rest, rfl, h⟩, ?_⟩
    rintro ⟨plus, ds, hds, h⟩
    cases plus with
    | true =>
      cases hds
      exact h
    | false =>
      obtain rfl : ds = '+' :: rest := hds.symm
      exact absurd List.mem_cons_self (h.not_mem h16)
  next hplus =>
    rw [hdigits]
    refine and_congr_left fun _ => ⟨fun h => ⟨false, text, rfl, h⟩, ?_⟩
    rintro ⟨plus, ds, hds, h⟩
    cases plus with
    | true => exact absurd hds (hplus ds)
    | false =>
      obtain rfl : ds = text := hds.symm
      exact h

theorem denotes_padded (hb : 1 < base) (h16 : base ≤ 16) (zeros n : Nat) :
    Denotes base (List.replicate zeros '0' ++ Nat.toDigits base n) n := by
  rw [denotes_iff h16]
  refine ⟨by simp [Nat.toDigits_ne_nil], Numeral.continue?_padded hb h16 zeros n⟩

theorem eq_digitChar_of_value? (h : value? c = some d) (hd : d < 10) : c = Nat.digitChar d := by
  have hsome : (value? c).isSome = true := by rw [h]; rfl
  have hall : ∀ d ∈ value? c, d < 10 → c = Nat.digitChar d :=
    forall_digit (P := fun c => ∀ d ∈ value? c, d < 10 → c = Nat.digitChar d) (by decide) hsome
  exact hall d h hd

/-- One more digit behind zeros and a number: the number is longer, or it was zero as well. -/
theorem padded_snoc (zeros m : Nat) (hd : d < 10) : ∃ more,
    List.replicate zeros '0' ++ Nat.toDigits 10 m ++ [Nat.digitChar d] =
      List.replicate more '0' ++ Nat.toDigits 10 (m * 10 + d) := by
  by_cases hm : m = 0
  · refine ⟨zeros + 1, ?_⟩
    rw [hm, Nat.zero_mul, Nat.zero_add, Nat.toDigits_of_lt_base hd, List.replicate_succ']
    rfl
  · refine ⟨zeros, ?_⟩
    have hdiv : (m * 10 + d) / 10 = m := by omega
    have hmod : (m * 10 + d) % 10 = d := by omega
    rw [Nat.toDigits_eq_if (n := m * 10 + d) (by decide), if_neg (by omega), hdiv, hmod,
      List.append_assoc]

/-- In decimal, where no letters are digits, the spellings of a number differ in the zeros in front
only. -/
theorem Denotes.eq_padded (h : Denotes 10 text n) :
    ∃ zeros, text = List.replicate zeros '0' ++ Nat.toDigits 10 n := by
  rcases (denotes_iff (by decide)).1 h with ⟨hne, hn⟩
  clear h
  induction text using List.reverseRecOn generalizing n with
  | nil => exact absurd rfl hne
  | append_singleton ds c ih =>
    rw [continue?_append, Option.bind_eq_some_iff] at hn
    rcases hn with ⟨m, hm, hc⟩
    rcases (continue?_eq_some_iff (by decide)).1 hc with ⟨values, hvalues, hvalue⟩
    rcases List.forall₂_cons_left_iff.1 hvalues with ⟨d, rest, hd, hrest, rfl⟩
    cases hrest
    have hchar := (isDigit_iff (by decide)).1 hd
    have hn : n = m * 10 + d := by
      rw [← hvalue, ofDigits_reverse_cons]
      simp
    rw [eq_digitChar_of_value? hchar.1 hd.1, hn]
    by_cases hnil : ds = []
    · subst hnil
      cases hm
      refine ⟨0, ?_⟩
      rw [Nat.zero_mul, Nat.zero_add, Nat.toDigits_of_lt_base hd.1]
      rfl
    · rcases ih hnil hm with ⟨zeros, hds⟩
      rw [hds]
      exact padded_snoc zeros m hd.1

end LongMode.Digits

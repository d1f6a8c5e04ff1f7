import LongMode.Json.Document
import LongMode.Proofs.Json.Number
import LongMode.Proofs.Json.Quoted
/-!
The words of a text are found where they stand, whatever follows them: a number ends where the
character behind it does not belong to it, and every other word shows its end itself.
-/

namespace LongMode.Json

theorem head?_append (front : List Char) {rest rest' : List Char} (h : rest'.head? = rest.head?) :
    (front ++ rest').head? = (front ++ rest).head? := by
  cases front with
  | nil => exact h
  | cons c front => rfl

theorem head?_ne {c : Char} {text : List Char} (h : ∀ rest, text = c :: rest → False) :
    text.head? ≠ some c := by
  cases text with
  | nil => nofun
  | cons d rest =>
    intro heq
    cases heq
    exact h rest rfl

/-- What is found at the front of a text is found there as well if something else follows that starts
with the same character. -/
def Local {α : Type} (P : List Char → Except Refusal (α × List Char)) : Prop :=
  ∀ text x rest, P text = .ok (x, rest) → ∃ front, text = front ++ rest ∧
    ∀ rest' : List Char, rest'.head? = rest.head? → P (front ++ rest') = .ok (x, rest')

namespace Local

variable {α β : Type} {P : List Char → Except Refusal (α × List Char)}

theorem bind (hP : Local P) {Q : α → List Char → Except Refusal (β × List Char)}
    (hQ : ∀ x, Local (Q x)) : Local fun text => P text >>= fun (x, rest) => Q x rest := by
  intro text y rest h
  obtain ⟨⟨x, more⟩, hx, hy⟩ := ok_of_bind h
  obtain ⟨front, htext, hfront⟩ := hP text x more hx
  obtain ⟨front', hmore, hfront'⟩ := hQ x more y rest hy
  refine ⟨front ++ front', by rw [htext, hmore, List.append_assoc], fun rest' hhead => ?_⟩
  have hmiddle := head?_append front' hhead
  rw [← hmore] at hmiddle
  dsimp only
  rw [List.append_assoc, hfront _ hmiddle, ok_bind]
  exact hfront' rest' hhead

theorem map (hP : Local P) (f : α → β) :
    Local fun text => P text >>= fun (x, rest) => .ok (f x, rest) := by
  refine hP.bind (Q := fun x rest => .ok (f x, rest)) fun x text y rest h => ?_
  cases h
  exact ⟨[], rfl, fun rest' _ => rfl⟩

theorem length_le (hP : Local P) {text rest : List Char} {x : α} (h : P text = .ok (x, rest)) :
    rest.length ≤ text.length := by
  obtain ⟨front, rfl, -⟩ := hP text x rest h
  simp

end Local

namespace Number

theorem digits_local : Local digits := by
  intro text ds rest h
  obtain ⟨htext, hne, hall⟩ := eq_append_of_digits h
  obtain ⟨hspan, -⟩ := digits_eq_ok.1 h
  refine ⟨ds, htext, fun rest' hhead => digits_eq_ok.2 ⟨span_digits hall fun c hc => ?_, hne⟩⟩
  rw [List.span_eq_takeWhile_dropWhile] at hspan
  rw [hhead, ← (Prod.mk.inj hspan).2] at hc
  have hstop := List.head?_dropWhile_not isDigit text
  rw [hc] at hstop
  simpa using hstop

theorem whole_local : Local whole := by
  intro text ds rest h
  obtain ⟨⟨es, more⟩, hdigits, h⟩ := ok_of_bind h
  split at h
  · cases h
  · rename_i hzero
    cases h
    obtain ⟨front, htext, hfront⟩ := digits_local _ _ _ hdigits
    refine ⟨front, htext, fun rest' hhead => ?_⟩
    rw [whole, hfront rest' hhead, ok_bind]
    split
    · rename_i heq
      cases heq
      exact (hzero _ _ _ rfl).elim
    · rfl

theorem fraction_local : Local fraction := by
  intro text fs rest h
  unfold fraction at h
  split at h
  · obtain ⟨front, rfl, hfront⟩ := digits_local _ _ _ h
    exact ⟨'.' :: front, rfl, hfront⟩
  · rename_i hpoint
    cases h
    exact ⟨[], rfl, fun rest' hhead => fraction_of_head? (hhead ▸ head?_ne hpoint)⟩

theorem sign_of_head? {text : List Char} (hplus : text.head? ≠ some '+')
    (hminus : text.head? ≠ some '-') : sign text = (false, text) := by
  unfold sign
  split
  · exact absurd rfl hplus
  · exact absurd rfl hminus
  · rfl

theorem sign_local : Local fun text => .ok (sign text) := by
  intro text negative rest h
  have hsign := Except.ok.inj h
  unfold sign at hsign
  split at hsign
  · cases hsign
    exact ⟨['+'], rfl, fun rest' _ => rfl⟩
  · cases hsign
    exact ⟨['-'], rfl, fun rest' _ => rfl⟩
  · rename_i hplus hminus
    cases hsign
    exact ⟨[], rfl, fun rest' hhead => congrArg Except.ok
      (sign_of_head? (hhead ▸ head?_ne hplus) (hhead ▸ head?_ne hminus))⟩

theorem exponent_local {α : Type} (f : Bool → List Char → α) :
    Local fun text => exponent text >>= fun s => .ok (f s.1 s.2.1, s.2.2) := by
  have hsigned := sign_local.bind fun negative => digits_local.map (f negative)
  have hletter {c : Char} (hc : c = 'e' ∨ c = 'E') (text : List Char) :
      (exponent (c :: text) >>= fun s => .ok (f s.1 s.2.1, s.2.2)) =
        .ok (sign text) >>= fun signed => digits signed.2 >>= fun s =>
          .ok (f signed.1 s.1, s.2) := by
    rw [exponent, if_pos hc]
    simp only [bind_assoc]
    rfl
  intro text found rest h
  by_cases hc : ∃ c, (c = 'e' ∨ c = 'E') ∧ text.head? = some c
  · obtain ⟨c, hc, hhead⟩ := hc
    obtain ⟨text, rfl⟩ := List.head?_eq_some_iff.1 hhead
    obtain ⟨front, rfl, hfront⟩ := hsigned text found rest ((hletter hc text).symm.trans h)
    exact ⟨c :: front, rfl, fun rest' hhead => (hletter hc _).trans (hfront rest' hhead)⟩
  · dsimp only at h ⊢
    have hnone (text' : List Char) (hhead : text'.head? = text.head?) :
        exponent text' = .ok (false, [], text') :=
      exponent_of_head? (fun he => hc ⟨_, .inl rfl, hhead ▸ he⟩)
        (fun hE => hc ⟨_, .inr rfl, hhead ▸ hE⟩)
    rw [hnone text rfl, ok_bind] at h
    cases h
    exact ⟨[], rfl, fun rest' hhead => by rw [List.nil_append, hnone rest' hhead, ok_bind]⟩

theorem minus_local : Local fun text => .ok (minus text) := by
  intro text negative rest h
  have hminus := Except.ok.inj h
  unfold minus at hminus
  split at hminus
  · cases hminus
    exact ⟨['-'], rfl, fun rest' _ => rfl⟩
  · rename_i hother
    cases hminus
    exact ⟨[], rfl, fun rest' hhead => congrArg Except.ok
      (minus_of_head? (hhead ▸ head?_ne hother))⟩

theorem parts_behind_local (signed : Bool) (ds : List Char) : Local fun text =>
    fraction text >>= fun (fs, rest) => exponent rest >>= fun (negative, es, rest) =>
      .ok (Parts.mk signed ds fs negative es, rest) :=
  fraction_local.bind fun fs => exponent_local fun negative es =>
    Parts.mk signed ds fs negative es

theorem parts_local : Local parts :=
  minus_local.bind fun signed => whole_local.bind (parts_behind_local signed)

theorem read_local : Local read := by
  intro text number rest h
  rw [read_eq] at h
  obtain ⟨⟨p, behind⟩, hparts, h⟩ := ok_of_bind h
  obtain ⟨rfl, rfl⟩ := Prod.mk.inj (Except.ok.inj h)
  obtain ⟨front, rfl, hfront⟩ := parts_local _ _ _ hparts
  refine ⟨front, rfl, fun rest' hhead => ?_⟩
  have htake (rest : List Char) :
      (front ++ rest).take ((front ++ rest).length - rest.length) = front := by
    rw [List.length_append, Nat.add_sub_cancel, List.take_left]
  rw [read_eq, hfront rest' hhead, ok_bind]
  dsimp only
  rw [htake, htake]

/-- A number takes at least one character. -/
theorem length_of_read {text rest : List Char} {number : Option Number}
    (h : read text = .ok (number, rest)) : rest.length < text.length := by
  rw [read_eq] at h
  obtain ⟨⟨p, behind⟩, hparts, h⟩ := ok_of_bind h
  obtain ⟨-, rfl⟩ := Prod.mk.inj (Except.ok.inj h)
  cases hminus : minus text with
  | mk signed unsigned =>
    have hunsigned := minus_local.length_le (congrArg Except.ok hminus)
    rw [parts, hminus] at hparts
    obtain ⟨⟨ds, behindWhole⟩, hwhole, hmore⟩ := ok_of_bind hparts
    have hrest := (parts_behind_local signed ds).length_le hmore
    obtain ⟨rfl, hvalue, -⟩ := eq_append_of_whole hwhole
    have hpos : 0 < ds.length := by
      rw [← hvalue, List.length_pos_iff]
      exact Nat.toDigits_ne_nil
    rw [List.length_append] at hunsigned
    omega

end Number

namespace Quoted

/-- Four digits are read as a number, whatever follows them. -/
theorem quad_local {text rest : List Char} {n : Nat} (h : quad text = .ok (n, rest)) :
    ∃ a b c d, text = a :: b :: c :: d :: rest ∧
      ∀ rest', quad (a :: b :: c :: d :: rest') = .ok (n, rest') := by
  unfold quad at h
  split_ifs at h with hshort
  split at h
  · rename_i a b c d behind
    have hlong : ¬ Numeral.byteLength [a, b, c, d] < 4 := hshort
    cases hn : Digits.continue? 16 0 [a, b, c, d] with
    | none =>
      rw [hn] at h
      cases h
    | some m =>
      rw [hn] at h
      cases h
      refine ⟨a, b, c, d, rfl, fun rest' => ?_⟩
      unfold quad
      rw [if_neg (show ¬ Numeral.byteLength (List.take 4 (a :: b :: c :: d :: rest')) < 4 from hlong)]
      dsimp only
      rw [hn]
  · cases h

/-- A text that can be passed over, with its closing quote. -/
inductive Closed : List Char → Prop
  | quote : Closed ['"']
  | code {a b c d : Char} {n : Nat} (hn : ∀ rest, quad (a :: b :: c :: d :: rest) = .ok (n, rest))
    {front : List Char} (h : Closed front) : Closed ('\\' :: 'u' :: a :: b :: c :: d :: front)
  | letter {c d : Char} (hu : c ≠ 'u') (hd : letter? c = some d) {front : List Char}
    (h : Closed front) : Closed ('\\' :: c :: front)
  | plain {c : Char} (hquote : c ≠ '"') (hslash : c ≠ '\\') (hc : ¬ c.toNat < 0x20)
    {front : List Char} (h : Closed front) : Closed (c :: front)

theorem skipEscape_code (text : List Char) : skipEscape ('u' :: text) = (quad text).map Prod.snd := rfl

theorem skipEscape_letter {c : Char} (hu : c ≠ 'u') (rest : List Char) :
    skipEscape (c :: rest) = if (letter? c).isSome then .ok rest else .error .malformed := by
  unfold skipEscape
  split
  · rename_i heq
    cases heq
  · rename_i heq
    exact absurd (List.cons.inj heq).1 hu
  · rename_i heq
    obtain ⟨rfl, rfl⟩ := List.cons.inj heq
    rfl

theorem skipUpTo_quote (k : Nat) (rest : List Char) : skipUpTo k ('"' :: rest) = .ok rest := by
  cases k <;> rfl

theorem skipUpTo_slash (k : Nat) (rest : List Char) :
    skipUpTo (k + 1) ('\\' :: rest) = skipEscape rest >>= skipUpTo k := rfl

theorem skipUpTo_plain {c : Char} (hquote : c ≠ '"') (hslash : c ≠ '\\') (k : Nat)
    (rest : List Char) : skipUpTo (k + 1) (c :: rest) =
      if c.toNat < 0x20 then .error .malformed else skipUpTo k rest := by
  rw [skipUpTo]
  · exact hquote
  · exact hslash

theorem cases_of_skipEscape {text rest : List Char} (h : skipEscape text = .ok rest) :
    (∃ a b c d n, text = 'u' :: a :: b :: c :: d :: rest ∧
      ∀ rest', quad (a :: b :: c :: d :: rest') = .ok (n, rest')) ∨
    ∃ c d, c ≠ 'u' ∧ letter? c = some d ∧ text = c :: rest := by
  cases text with
  | nil => cases h
  | cons c text =>
    by_cases hu : c = 'u'
    · subst hu
      rw [skipEscape_code] at h
      cases hquad : quad text with
      | error r =>
        rw [hquad] at h
        cases h
      | ok found =>
        obtain ⟨n, more⟩ := found
        rw [hquad] at h
        obtain rfl : more = rest := Except.ok.inj h
        obtain ⟨a, b, c, d, rfl, hn⟩ := quad_local hquad
        exact .inl ⟨a, b, c, d, n, rfl, hn⟩
    · rw [skipEscape_letter hu] at h
      split_ifs at h with hletter
      obtain ⟨d, hd⟩ := Option.isSome_iff_exists.1 hletter
      cases h
      exact .inr ⟨c, d, hu, hd, rfl⟩

theorem closed_of_skip {k : Nat} {text rest : List Char} (h : skipUpTo k text = .ok rest) :
    ∃ front, Closed front ∧ text = front ++ rest := by
  induction k generalizing text with
  | zero =>
    unfold skipUpTo at h
    split at h
    · cases h
      exact ⟨['"'], .quote, rfl⟩
    · cases h
    all_goals rename_i hk; cases hk
  | succ k ih =>
    cases text with
    | nil => cases h
    | cons c text =>
      by_cases hquote : c = '"'
      · subst hquote
        rw [skipUpTo_quote] at h
        cases h
        exact ⟨['"'], .quote, rfl⟩
      by_cases hslash : c = '\\'
      · subst hslash
        rw [skipUpTo_slash] at h
        obtain ⟨more, hescape, h⟩ := ok_of_bind h
        obtain ⟨front, hfront, rfl⟩ := ih h
        obtain ⟨a, b, c, d, n, rfl, hn⟩ | ⟨c, d, hu, hd, rfl⟩ := cases_of_skipEscape hescape
        · exact ⟨_, .code hn hfront, rfl⟩
        · exact ⟨_, .letter hu hd hfront, rfl⟩
      · rw [skipUpTo_plain hquote hslash] at h
        split_ifs at h with hc
        obtain ⟨front, hfront, rfl⟩ := ih h
        exact ⟨_, .plain hquote hslash hc hfront, rfl⟩

theorem skip_of_closed {front : List Char} (h : Closed front) (rest : List Char) {k : Nat}
    (hk : front.length ≤ k) : skipUpTo k (front ++ rest) = .ok rest := by
  induction h generalizing k with
  | quote => exact skipUpTo_quote k rest
  | code hn _ ih =>
    obtain ⟨k, rfl⟩ : ∃ j, k = j + 1 := ⟨k - 1, by simp at hk; omega⟩
    simp only [List.length_cons] at hk
    rw [List.cons_append, skipUpTo_slash, List.cons_append, skipEscape_code]
    simp only [List.cons_append, hn]
    exact ih (by omega)
  | letter hu hd _ ih =>
    obtain ⟨k, rfl⟩ : ∃ j, k = j + 1 := ⟨k - 1, by simp at hk; omega⟩
    simp only [List.length_cons] at hk
    rw [List.cons_append, skipUpTo_slash, List.cons_append, skipEscape_letter hu, hd]
    exact ih (by omega)
  | plain hquote hslash hc _ ih =>
    obtain ⟨k, rfl⟩ : ∃ j, k = j + 1 := ⟨k - 1, by simp at hk; omega⟩
    simp only [List.length_cons] at hk
    rw [List.cons_append, skipUpTo_plain hquote hslash, if_neg hc]
    exact ih (by omega)

/-! What a text is read as does not depend on what follows its closing quote. -/

theorem unescape_code (text : List Char) : unescape ('u' :: text) = quad text >>= fun r =>
    if isTrailing r.1 then .error .malformed
    else if isLeading r.1 then trailing r.1 r.2
    else .ok (Char.ofNat r.1, r.2) := rfl

theorem unescape_letter {c : Char} (hu : c ≠ 'u') (rest : List Char) :
    unescape (c :: rest) = match letter? c with
      | some d => .ok (d, rest)
      | none => .error .malformed := by
  unfold unescape
  split
  · rename_i heq
    cases heq
  · rename_i heq
    exact absurd (List.cons.inj heq).1 hu
  · rename_i heq
    obtain ⟨rfl, rfl⟩ := List.cons.inj heq
    rfl

theorem trailing_code (leading : Nat) (text : List Char) :
    trailing leading ('\\' :: 'u' :: text) = quad text >>= fun r =>
      if isTrailing r.1 then
        .ok (Char.ofNat (0x10000 + (leading - 0xD800) * 0x400 + (r.1 - 0xDC00)), r.2)
      else .error .malformed := rfl

theorem trailing_letter {c : Char} (hu : c ≠ 'u') (leading : Nat) (rest : List Char) :
    trailing leading ('\\' :: c :: rest) = .error .malformed := by
  unfold trailing
  split
  · rename_i heq
    cases heq
  · rename_i heq
    cases heq
  · rename_i heq
    exact absurd (List.cons.inj (List.cons.inj heq).2).1 hu
  · rfl

theorem trailing_plain {c : Char} (hslash : c ≠ '\\') (leading : Nat) (rest : List Char) :
    trailing leading (c :: rest) = .error .malformed := by
  unfold trailing
  split
  · rename_i heq
    cases heq
  · rename_i heq
    exact absurd (List.cons.inj heq).1 hslash
  · rename_i heq
    exact absurd (List.cons.inj heq).1 hslash
  · rfl

theorem next_plain {c : Char} (hslash : c ≠ '\\') (rest : List Char) :
    next (c :: rest) = if c.toNat < 0x20 then .error .malformed else .ok (c, rest) := by
  unfold next
  split
  · rename_i heq
    cases heq
  · rename_i heq
    exact absurd (List.cons.inj heq).1 hslash
  · rename_i heq
    obtain ⟨rfl, rfl⟩ := List.cons.inj heq
    rfl

/-- Whatever follows, the front of a text is read with this result. -/
def Settled (front : List Char) (result : Except Refusal (List Char)) : Prop :=
  ∀ (rest : List Char) (k : Nat), front.length ≤ k →
    readUpTo k (front ++ rest) = result.map fun s => (s, rest)

theorem Settled.step (front : List Char) {more : List Char} {result : Except Refusal (List Char)} {c : Char}
    (h : Settled more result) (hne : front ≠ []) (hquote : front.head? ≠ some '"')
    (hnext : ∀ rest, next (front ++ rest) = .ok (c, rest)) :
    Settled (front ++ more) (result.map (c :: ·)) := by
  intro rest k hk
  have hpos := List.length_pos_iff.2 hne
  rw [List.length_append] at hk
  obtain ⟨k, rfl⟩ : ∃ j, k = j + 1 := ⟨k - 1, by omega⟩
  rw [List.append_assoc, readUpTo_succ (by rwa [List.head?_append_of_ne_nil _ hne]), hnext]
  change (readUpTo k (more ++ rest)).bind _ = _
  rw [h rest k (by omega)]
  cases result <;> rfl

theorem settled_error {front : List Char} {r : Refusal} (hne : front ≠ [])
    (hquote : front.head? ≠ some '"') (hnext : ∀ rest, next (front ++ rest) = .error r) :
    Settled front (.error r) := by
  intro rest k hk
  have hpos := List.length_pos_iff.2 hne
  obtain ⟨k, rfl⟩ : ∃ j, k = j + 1 := ⟨k - 1, by omega⟩
  rw [readUpTo_succ (by rwa [List.head?_append_of_ne_nil _ hne]), hnext]
  rfl

theorem next_code {a b c d : Char} {n : Nat}
    (hn : ∀ rest, quad (a :: b :: c :: d :: rest) = .ok (n, rest)) (rest : List Char) :
    next ('\\' :: 'u' :: a :: b :: c :: d :: rest) =
      if isTrailing n then .error .malformed
      else if isLeading n then trailing n rest
      else .ok (Char.ofNat n, rest) := by
  change unescape ('u' :: _) = _
  rw [unescape_code, hn]
  rfl

/-- Two codes that follow each other are read as one character or not at all, so that the recursion
goes past both. -/
theorem exists_settled {front : List Char} (h : Closed front) : ∃ result, Settled front result := by
  induction hlength : front.length using Nat.strongRecOn generalizing front with
  | _ length ih =>
    subst hlength
    cases h with
    | quote => exact ⟨.ok [], fun rest k _ => by cases k <;> rfl⟩
    | @letter c d hu hd front h =>
      obtain ⟨result, hresult⟩ := ih front.length (by simp) h rfl
      exact ⟨_, hresult.step ['\\', c] (by simp) (by simp) fun rest =>
        (unescape_letter hu rest).trans (by rw [hd])⟩
    | @plain c hquote hslash hc front h =>
      obtain ⟨result, hresult⟩ := ih front.length (by simp) h rfl
      exact ⟨_, hresult.step [c] (by simp) (by simpa using hquote) fun rest =>
        (next_plain hslash rest).trans (if_neg hc)⟩
    | @code a b c d n hn front h =>
      have hfails {r : Refusal} (hnext : ∀ rest, next ('\\' :: 'u' :: a :: b :: c :: d ::
          (front ++ rest)) = .error r) :
          ∃ result, Settled ('\\' :: 'u' :: a :: b :: c :: d :: front) result :=
        ⟨_, settled_error (by simp) (by simp) hnext⟩
      by_cases htrailing : isTrailing n
      · exact hfails fun rest => by rw [next_code hn, if_pos htrailing]
      by_cases hleading : isLeading n
      · have hnext (rest : List Char) :
            next ('\\' :: 'u' :: a :: b :: c :: d :: rest) = trailing n rest := by
          rw [next_code hn, if_neg htrailing, if_pos hleading]
        cases h with
        | quote => exact hfails fun rest => (hnext _).trans (trailing_plain (by decide) n _)
        | letter hu _ _ => exact hfails fun rest => (hnext _).trans (trailing_letter hu n _)
        | plain _ hslash _ _ => exact hfails fun rest => (hnext _).trans (trailing_plain hslash n _)
        | @code e f g i m hm front h =>
          have hpair (rest : List Char) : trailing n ('\\' :: 'u' :: e :: f :: g :: i :: rest) =
              if isTrailing m then
                .ok (Char.ofNat (0x10000 + (n - 0xD800) * 0x400 + (m - 0xDC00)), rest)
              else .error .malformed := by
            rw [trailing_code, hm]
            rfl
          by_cases hm' : isTrailing m
          · obtain ⟨result, hresult⟩ := ih front.length (by simp; omega) h rfl
            exact ⟨_, hresult.step ['\\', 'u', a, b, c, d, '\\', 'u', e, f, g, i]
              (by simp) (by simp) fun rest => ((hnext _).trans (hpair rest)).trans (if_pos hm')⟩
          · exact hfails fun rest => ((hnext _).trans (hpair _)).trans (if_neg hm')
      · obtain ⟨result, hresult⟩ := ih front.length (by simp; omega) h rfl
        exact ⟨_, hresult.step ['\\', 'u', a, b, c, d] (by simp) (by simp) fun rest =>
          (next_code hn rest).trans ((if_neg htrailing).trans (if_neg hleading))⟩

theorem closed_of_trailing {leading : Nat} {text rest : List Char} {c : Char}
    (h : trailing leading text = .ok (c, rest)) :
    ∃ front, text = front ++ rest ∧ ∀ more, Closed more → Closed (front ++ more) := by
  unfold trailing at h
  split at h
  · cases h
  · cases h
  · obtain ⟨⟨n, more⟩, hquad, h⟩ := ok_of_bind h
    dsimp only at h
    split_ifs at h
    obtain ⟨-, rfl⟩ := Prod.mk.inj (Except.ok.inj h)
    obtain ⟨a, b, c, d, rfl, hn⟩ := quad_local hquad
    exact ⟨['\\', 'u', a, b, c, d], rfl, fun more => .code hn⟩
  · cases h

theorem closed_of_unescape {text rest : List Char} {c : Char} (h : unescape text = .ok (c, rest)) :
    ∃ front, text = front ++ rest ∧ ∀ more, Closed more → Closed ('\\' :: (front ++ more)) := by
  cases text with
  | nil => cases h
  | cons e text =>
    by_cases hu : e = 'u'
    · subst hu
      rw [unescape_code] at h
      obtain ⟨⟨n, more⟩, hquad, hcode⟩ := ok_of_bind h
      obtain ⟨a, b, c, d, rfl, hn⟩ := quad_local hquad
      dsimp only at hcode
      split_ifs at hcode
      · obtain ⟨front, rfl, hfront⟩ := closed_of_trailing hcode
        exact ⟨['u', a, b, c, d] ++ front, rfl, fun more hmore => .code hn (hfront more hmore)⟩
      · cases hcode
        exact ⟨['u', a, b, c, d], rfl, fun more => .code hn⟩
    · rw [unescape_letter hu] at h
      cases hd : letter? e with
      | none =>
        rw [hd] at h
        cases h
      | some d =>
        rw [hd] at h
        cases h
        exact ⟨[e], rfl, fun more => .letter hu hd⟩

theorem closed_of_next {text rest : List Char} {c : Char} (hquote : text.head? ≠ some '"')
    (h : next text = .ok (c, rest)) :
    ∃ front, text = front ++ rest ∧ ∀ more, Closed more → Closed (front ++ more) := by
  cases text with
  | nil => cases h
  | cons e text =>
    by_cases hslash : e = '\\'
    · subst hslash
      obtain ⟨front, rfl, hfront⟩ := closed_of_unescape h
      exact ⟨'\\' :: front, rfl, hfront⟩
    · rw [next_plain hslash] at h
      split_ifs at h with hc
      cases h
      exact ⟨[c], rfl, fun more => .plain (by simpa using hquote) hslash hc⟩

theorem readUpTo_quote (k : Nat) (rest : List Char) : readUpTo k ('"' :: rest) = .ok ([], rest) := by
  cases k <;> rfl

theorem closed_of_quote {k : Nat} {text s rest : List Char} (hquote : text.head? = some '"')
    (h : readUpTo k text = .ok (s, rest)) : ∃ front, Closed front ∧ text = front ++ rest := by
  obtain ⟨text, rfl⟩ := List.head?_eq_some_iff.1 hquote
  rw [readUpTo_quote] at h
  cases h
  exact ⟨['"'], .quote, rfl⟩

theorem readUpTo_zero {text : List Char} (h : text.head? ≠ some '"') :
    readUpTo 0 text = .error .truncated := by
  rw [readUpTo]
  rintro rest rfl
  exact h rfl

theorem closed_of_read {k : Nat} {text s rest : List Char} (h : readUpTo k text = .ok (s, rest)) :
    ∃ front, Closed front ∧ text = front ++ rest := by
  induction k generalizing text s with
  | zero =>
    by_cases hquote : text.head? = some '"'
    · exact closed_of_quote hquote h
    · rw [readUpTo_zero hquote] at h
      cases h
  | succ k ih =>
    by_cases hquote : text.head? = some '"'
    · exact closed_of_quote hquote h
    · rw [readUpTo_succ hquote] at h
      obtain ⟨⟨c, more⟩, hnext, h⟩ := ok_of_bind h
      obtain ⟨⟨cs, behind⟩, hread, h⟩ := ok_of_bind h
      cases h
      obtain ⟨front, rfl, hfront⟩ := closed_of_next hquote hnext
      obtain ⟨tail, htail, hmore⟩ := ih hread
      exact ⟨front ++ tail, hfront tail htail, by rw [List.append_assoc, ← hmore]⟩

/-! From the opening quote on. -/

theorem read_local {text s rest : List Char} (h : read text = .ok (s, rest)) :
    ∃ front, text = front ++ rest ∧ ∀ rest', read (front ++ rest') = .ok (s, rest') := by
  obtain ⟨front, hclosed, rfl⟩ := closed_of_read h
  obtain ⟨result, hresult⟩ := exists_settled hclosed
  have hread (rest : List Char) : read (front ++ rest) = result.map fun s => (s, rest) :=
    hresult rest _ (by simp)
  rw [hread] at h
  refine ⟨front, rfl, fun rest' => ?_⟩
  rw [hread]
  cases result with
  | error r => cases h
  | ok s => cases h; rfl

theorem skip_local {text rest : List Char} {r : Refusal} (hread : read text = .error r)
    (h : skip text = .ok rest) : ∃ front, text = front ++ rest ∧
      ∀ rest', read (front ++ rest') = .error r ∧ skip (front ++ rest') = .ok rest' := by
  obtain ⟨front, hclosed, rfl⟩ := closed_of_skip h
  obtain ⟨result, hresult⟩ := exists_settled hclosed
  have hread' (rest : List Char) : read (front ++ rest) = result.map fun s => (s, rest) :=
    hresult rest _ (by simp)
  rw [hread'] at hread
  refine ⟨front, rfl, fun rest' => ⟨?_, skip_of_closed hclosed rest' (by simp)⟩⟩
  rw [hread']
  cases result with
  | error r => cases hread; rfl
  | ok s => cases hread

end Quoted

namespace Document

theorem eq_of_word {d found : Document} {letters cs rest : List Char}
    (h : word d letters cs = (found, some rest)) : found = d ∧ cs = letters ++ rest := by
  induction letters generalizing cs with
  | nil =>
    cases h
    exact ⟨rfl, rfl⟩
  | cons c letters ih =>
    cases cs with
    | nil => cases h
    | cons e cs =>
      rw [word] at h
      split_ifs at h with hce
      · obtain ⟨rfl, rfl⟩ := ih h
        exact ⟨rfl, by rw [hce]; rfl⟩
      · cases h

theorem ofQuoted_local {cs rest : List Char} {d : Document} (h : ofQuoted cs = (d, some rest)) :
    ∃ front, cs = front ++ rest ∧ ∀ rest', ofQuoted (front ++ rest') = (d, some rest') := by
  unfold ofQuoted at h
  split at h
  · rename_i hread
    cases h
    obtain ⟨front, htext, hfront⟩ := Quoted.read_local hread
    refine ⟨front, htext, fun rest' => ?_⟩
    rw [ofQuoted, hfront]
  · rename_i hread hskip
    cases h
    obtain ⟨front, htext, hfront⟩ := Quoted.skip_local hread hskip
    refine ⟨front, htext, fun rest' => ?_⟩
    rw [ofQuoted, (hfront rest').1, (hfront rest').2]
  · cases h

theorem ofName_local {cs rest : List Char} {name : Except Refusal String}
    (h : ofName cs = .ok (name, rest)) :
    ∃ front, cs = front ++ rest ∧ ∀ rest', ofName (front ++ rest') = .ok (name, rest') := by
  unfold ofName at h
  split at h
  · rename_i hread
    cases h
    obtain ⟨front, htext, hfront⟩ := Quoted.read_local hread
    refine ⟨front, htext, fun rest' => ?_⟩
    rw [ofName, hfront]
  · rename_i hread hskip
    cases h
    obtain ⟨front, htext, hfront⟩ := Quoted.skip_local hread hskip
    refine ⟨front, htext, fun rest' => ?_⟩
    rw [ofName, (hfront rest').1, (hfront rest').2]
  · cases h

theorem ofNumber_local {cs rest : List Char} {d : Document} (h : ofNumber cs = (d, some rest)) :
    ∃ front, front ≠ [] ∧ cs = front ++ rest ∧ ∀ rest' : List Char, rest'.head? = rest.head? →
      ofNumber (front ++ rest') = (d, some rest') := by
  obtain ⟨number, hread⟩ : ∃ number, Number.read cs = .ok (number, rest) := by
    unfold ofNumber at h
    split at h
    all_goals cases h
    all_goals exact ⟨_, ‹_›⟩
  obtain ⟨front, rfl, hfront⟩ := Number.read_local _ _ _ hread
  have hlength := Number.length_of_read hread
  rw [List.length_append] at hlength
  refine ⟨front, List.length_pos_iff.1 (by omega), rfl, fun rest' hhead => ?_⟩
  rw [ofNumber, hread] at h
  rw [ofNumber, hfront rest' hhead]
  cases number <;> cases h <;> rfl

end Document

end LongMode.Json

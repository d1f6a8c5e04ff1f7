import LongMode.Proofs.Except
import LongMode.Proofs.Text.Digits
/-!
The texts that are read as machine code. Between blanks and commas stand groups, each with or without
a marker in front, and a group is pairs of hexadecimal digits. A pair whose first digit is a plus sign
is read as well; every other text is refused, for the sake of its first group that is not read.
-/

namespace LongMode.Numeral

open Digits

variable {plus : Bool} {n : Nat} {b : UInt8} {c d : Char} {text token ds : List Char}
  {bytes : List UInt8} {tokens : List (List Char)} {e : NumeralError}

/-- Two hexadecimal digits, or where plus signs are allowed one digit behind such a sign. -/
inductive BytePair (plus : Bool) : Char → Char → UInt8 → Prop
  | digits {c d : Char} {high low : Nat} (hc : IsDigit 16 c high) (hd : IsDigit 16 d low) :
    BytePair plus c d (UInt8.ofNat (16 * high + low))
  | signed {d : Char} {low : Nat} (hplus : plus = true) (hd : IsDigit 16 d low) :
    BytePair plus '+' d (UInt8.ofNat low)

inductive BytePairs (plus : Bool) : List Char → List UInt8 → Prop
  | nil : BytePairs plus [] []
  | cons {c d : Char} {b : UInt8} {rest : List Char} {bytes : List UInt8}
    (hpair : BytePair plus c d b) (hrest : BytePairs plus rest bytes) :
    BytePairs plus (c :: d :: rest) (b :: bytes)

def Group (plus : Bool) : List Char → List UInt8 → Prop := Marked (BytePairs plus) (BytePairs plus)

/-- Groups between blanks and commas, with all their bytes. A group without characters has no bytes,
so that there may be any number of separators between two groups. -/
def CodeText (plus : Bool) (text : List Char) (bytes : List UInt8) : Prop :=
  ∃ chunks, List.Forall₂ (Group plus) (text.splitOnP isSeparator) chunks ∧ chunks.flatten = bytes

/-- A group, and others with the separator in front of each of them. -/
def separated (token : List Char) (others : List (Char × List Char)) : List Char :=
  token ++ others.flatMap fun other => other.1 :: other.2

def subject : NumeralError → String
  | .oddDigits token | .badPair _ token | .cutCharacter token => token
  | .notANumber text => text

/-! One pair. -/

theorem utf8Size_of_value? (h : (value? c).isSome = true) : c.utf8Size = 1 :=
  forall_digit (P := fun c => c.utf8Size = 1) (by decide) h

theorem BytePair.utf8Size (h : BytePair plus c d b) : c.utf8Size = 1 ∧ d.utf8Size = 1 := by
  have hdigit {c : Char} {v : Nat} (hc : IsDigit 16 c v) : c.utf8Size = 1 := by
    apply utf8Size_of_value?
    rw [((isDigit_iff (by decide)).1 hc).1]
    rfl
  cases h with
  | digits hc hd => exact ⟨hdigit hc, hdigit hd⟩
  | signed _ hd => exact ⟨by decide, hdigit hd⟩

theorem denotes_single : Denotes 16 [d] n ↔ IsDigit 16 d n := by
  simp [Denotes, List.forall₂_cons_left_iff]

theorem denotes_pair : Denotes 16 [c, d] n ↔
    ∃ high low, IsDigit 16 c high ∧ IsDigit 16 d low ∧ 16 * high + low = n := by
  unfold Denotes
  constructor
  · rintro ⟨-, values, hvalues, rfl⟩
    rcases List.forall₂_cons_left_iff.1 hvalues with ⟨high, rest, hc, hrest, rfl⟩
    rcases List.forall₂_cons_left_iff.1 hrest with ⟨low, rest, hd, hnil, rfl⟩
    cases hnil
    refine ⟨high, low, hc, hd, ?_⟩
    simp [Nat.ofDigits_cons]
    omega
  · rintro ⟨high, low, hc, hd, rfl⟩
    refine ⟨by simp, [high, low], .cons hc (.cons hd .nil), ?_⟩
    simp [Nat.ofDigits_cons]
    omega

/-- A pair is read as the byte that it stands for. -/
theorem bytePair_iff : BytePair true c d b ↔
    ∃ n, read? 16 256 [c, d] = some n ∧ UInt8.ofNat n = b := by
  simp only [read?_eq_some_iff (show 16 ≤ 16 from le_rfl)]
  constructor
  · intro h
    cases h with
    | @digits _ _ high low hc hd =>
      have hc' := hc.1
      have hd' := hd.1
      exact ⟨16 * high + low, ⟨⟨false, [c, d], rfl, denotes_pair.2 ⟨high, low, hc, hd, rfl⟩⟩,
        by omega⟩, rfl⟩
    | @signed _ low _ hd =>
      have hd' := hd.1
      exact ⟨low, ⟨⟨true, [d], rfl, denotes_single.2 hd⟩, by omega⟩, rfl⟩
  · rintro ⟨n, ⟨⟨plus, ds, hds, hn⟩, -⟩, rfl⟩
    cases plus with
    | true =>
      cases hds
      exact .signed rfl (denotes_single.1 hn)
    | false =>
      obtain rfl : ds = [c, d] := hds.symm
      rcases denotes_pair.1 hn with ⟨high, low, hc, hd, rfl⟩
      exact .digits hc hd

theorem BytePair.unique {b' : UInt8} (h : BytePair true c d b) (h' : BytePair true c d b') :
    b = b' := by
  rcases bytePair_iff.1 h with ⟨n, hn, rfl⟩
  rcases bytePair_iff.1 h' with ⟨m, hm, rfl⟩
  cases hn.symm.trans hm
  rfl

theorem bytePair_false_iff : BytePair false c d b ↔ BytePair true c d b ∧ '+' ∉ [c, d] := by
  have hplus {c : Char} {v : Nat} (hc : IsDigit 16 c v) : c ≠ '+' := by
    rintro rfl
    cases ((isDigit_iff (by decide)).1 hc).1
  constructor
  · intro h
    cases h with
    | digits hc hd => exact ⟨.digits hc hd, by simp [(hplus hc).symm, (hplus hd).symm]⟩
    | signed h => cases h
  · rintro ⟨h, hmem⟩
    cases h with
    | digits hc hd => exact .digits hc hd
    | signed => exact absurd List.mem_cons_self hmem

/-! One group. -/

theorem readPairs_single (token : String) (c : Char) :
    ∃ e, readPairs token [c] = .error e ∧ subject e = token := by
  rw [readPairs]
  split_ifs <;> exact ⟨_, rfl, rfl⟩

/-- The first two characters are read as a byte, or the reading fails on the group. -/
theorem readPairs_pair (token : String) (c d : Char) (rest : List Char) :
    (∃ b, BytePair true c d b ∧
      readPairs token (c :: d :: rest) = (readPairs token rest).map (b :: ·)) ∨
    (∀ b, ¬ BytePair true c d b) ∧
      ∃ e, readPairs token (c :: d :: rest) = .error e ∧ subject e = token := by
  rw [readPairs]
  split_ifs with hc hsizes
  · right
    refine ⟨fun b h => ?_, _, rfl, rfl⟩
    have hsize := h.utf8Size.1
    omega
  · right
    refine ⟨fun b h => ?_, _, rfl, rfl⟩
    have hsize := h.utf8Size
    omega
  · cases hn : read? 16 256 [c, d] with
    | none =>
      right
      refine ⟨fun b h => ?_, _, rfl, rfl⟩
      rcases bytePair_iff.1 h with ⟨n, hsome, -⟩
      rw [hn] at hsome
      cases hsome
    | some n =>
      left
      refine ⟨UInt8.ofNat n, bytePair_iff.2 ⟨n, hn, rfl⟩, ?_⟩
      cases readPairs token rest <;> rfl

theorem readPairs_eq_ok_iff (token : String) :
    readPairs token ds = .ok bytes ↔ BytePairs true ds bytes := by
  induction ds using List.twoStepInduction generalizing bytes with
  | nil =>
    constructor
    · intro h
      cases h
      exact .nil
    · intro h
      cases h
      rfl
  | singleton c =>
    rcases readPairs_single token c with ⟨e, he, -⟩
    rw [he]
    exact ⟨nofun, nofun⟩
  | cons_cons c d rest ih _ =>
    rcases readPairs_pair token c d rest with ⟨b, hb, hread⟩ | ⟨hnone, e, he, -⟩
    · rw [hread]
      constructor
      · intro h
        cases hrest : readPairs token rest with
        | error f =>
          rw [hrest] at h
          cases h
        | ok others =>
          rw [hrest] at h
          cases h
          exact .cons hb (ih.1 hrest)
      · intro h
        cases h with
        | cons hpair hrest =>
          rw [ih.2 hrest, hb.unique hpair]
          rfl
    · rw [he]
      refine ⟨nofun, fun h => ?_⟩
      cases h with
      | cons hpair => exact absurd hpair (hnone _)

theorem readPairs_error {token : String} (h : readPairs token ds = .error e) :
    subject e = token := by
  induction ds using List.twoStepInduction with
  | nil => cases h
  | singleton c =>
    rcases readPairs_single token c with ⟨f, hf, hsubject⟩
    cases h.symm.trans hf
    exact hsubject
  | cons_cons c d rest ih _ =>
    rcases readPairs_pair token c d rest with ⟨b, hb, hread⟩ | ⟨hnone, f, hf, hsubject⟩
    · rw [hread] at h
      cases hrest : readPairs token rest with
      | ok others =>
        rw [hrest] at h
        cases h
      | error f =>
        rw [hrest] at h
        cases h
        exact ih hrest
    · cases h.symm.trans hf
      exact hsubject

/-- Of pairs, two bytes of text stand for one of code. -/
theorem BytePairs.byteLength (h : BytePairs plus ds bytes) : byteLength ds = 2 * bytes.length := by
  induction h with
  | nil => rfl
  | cons hpair _ ih =>
    unfold Numeral.byteLength at ih ⊢
    rw [String.ofList_cons, String.ofList_cons, String.utf8ByteSize_append,
      String.utf8ByteSize_append, String.utf8ByteSize_singleton, String.utf8ByteSize_singleton,
      hpair.utf8Size.1, hpair.utf8Size.2, ih, List.length_cons]
    omega

theorem BytePairs.not_marker {x : Char} (hx : x = 'x' ∨ x = 'X') :
    ¬ BytePairs plus ('0' :: x :: text) bytes := by
  intro h
  cases h with
  | cons hpair =>
    cases hpair with
    | digits _ hd =>
      have hvalue := ((isDigit_iff (by decide)).1 hd).1
      rcases hx with rfl | rfl <;> cases hvalue

theorem group_iff : Group plus token bytes ↔
    BytePairs plus ((afterMarker? token).getD token) bytes := by
  have hmarked : Group plus token bytes ↔ _ := marked_iff fun _ _ hx => BytePairs.not_marker hx
  rw [hmarked]
  cases afterMarker? token <;> simp

theorem readToken_eq_ok_iff : readToken token = .ok bytes ↔ Group true token bytes := by
  rw [group_iff]
  unfold readToken
  dsimp only
  split_ifs with hodd
  · refine ⟨nofun, fun h => ?_⟩
    have hlength := h.byteLength
    omega
  · exact readPairs_eq_ok_iff _

theorem bytePairs_false_iff : BytePairs false ds bytes ↔ BytePairs true ds bytes ∧ '+' ∉ ds := by
  constructor
  · intro h
    induction h with
    | nil => exact ⟨.nil, by simp⟩
    | cons hpair _ ih =>
      rcases bytePair_false_iff.1 hpair with ⟨hpair, hmem⟩
      refine ⟨.cons hpair ih.1, ?_⟩
      simp only [List.mem_cons, List.not_mem_nil, or_false, not_or] at hmem ⊢
      exact ⟨hmem.1, hmem.2, ih.2⟩
  · rintro ⟨h, hmem⟩
    induction h with
    | nil => exact .nil
    | cons hpair _ ih =>
      simp only [List.mem_cons, not_or] at hmem
      refine .cons (bytePair_false_iff.2 ⟨hpair, ?_⟩) (ih hmem.2.2)
      simp [hmem.1, hmem.2.1]

theorem group_false_iff : Group false token bytes ↔ Group true token bytes ∧ '+' ∉ token := by
  rw [group_iff, group_iff, bytePairs_false_iff]
  refine and_congr_right fun _ => not_congr ?_
  cases hmarker : afterMarker? token with
  | none => rfl
  | some ds =>
    rcases afterMarker?_eq_some_iff.1 hmarker with ⟨x, rfl | rfl, rfl⟩ <;> simp

/-! The groups of a text. -/

theorem pieces_eq_splitOnP (p : Char → Bool) (text : List Char) :
    Text.pieces p text = text.splitOnP p := by
  induction text with
  | nil => rfl
  | cons c rest ih =>
    rw [Text.pieces, List.splitOnP_cons_eq_if_modifyHead, ih]
    split_ifs
    · rfl
    · cases hsplit : rest.splitOnP p with
      | nil => exact absurd hsplit (List.splitOnP_ne_nil p rest)
      | cons first others => rfl

/-- Characters that do not separate are in the pieces. -/
theorem mem_splitOnP {p : Char → Bool} (hc : p c = false) :
    c ∈ text ↔ ∃ piece ∈ text.splitOnP p, c ∈ piece := by
  induction text with
  | nil => simp
  | cons x rest ih =>
    rw [List.splitOnP_cons_eq_if_modifyHead, List.mem_cons, ih]
    split_ifs with hx
    · have hne : c ≠ x := by
        rintro rfl
        rw [hc] at hx
        cases hx
      simp [hne]
    · cases hsplit : rest.splitOnP p with
      | nil => exact absurd hsplit (List.splitOnP_ne_nil p rest)
      | cons first others => simp [or_assoc]

theorem splitOnP_separated {p : Char → Bool} {others : List (Char × List Char)}
    (htoken : ∀ c ∈ token, p c = false)
    (hothers : ∀ other ∈ others, p other.1 = true ∧ ∀ c ∈ other.2, p c = false) :
    (separated token others).splitOnP p = token :: others.map Prod.snd := by
  induction others generalizing token with
  | nil =>
    rw [separated, List.flatMap_nil, List.append_nil]
    exact List.splitOnP_eq_singleton htoken
  | cons other others ih =>
    rcases hothers other List.mem_cons_self with ⟨hsep, hpiece⟩
    have hrest := ih hpiece fun o ho => hothers o (List.mem_cons_of_mem _ ho)
    have hjoined : separated token (other :: others) =
        token ++ other.1 :: separated other.2 others := by simp [separated]
    rw [hjoined, List.splitOnP_append_cons_of_forall_mem htoken _ hsep, hrest, List.map_cons]

theorem readTokens_eq_ok_iff : readTokens tokens = .ok bytes ↔
    ∃ chunks, List.Forall₂ (Group true) tokens chunks ∧ chunks.flatten = bytes := by
  induction tokens generalizing bytes with
  | nil =>
    constructor
    · intro h
      cases h
      exact ⟨[], .nil, rfl⟩
    · rintro ⟨chunks, hchunks, rfl⟩
      cases hchunks
      rfl
  | cons token rest ih =>
    constructor
    · intro h
      rcases ok_of_bind h with ⟨first, hfirst, h⟩
      rcases ok_of_bind h with ⟨others, hothers, h⟩
      cases h
      rcases ih.1 hothers with ⟨chunks, hchunks, rfl⟩
      exact ⟨first :: chunks, .cons (readToken_eq_ok_iff.1 hfirst) hchunks, rfl⟩
    · rintro ⟨chunks, hchunks, rfl⟩
      rcases List.forall₂_cons_left_iff.1 hchunks with ⟨first, chunks, hfirst, hothers, rfl⟩
      rw [readTokens, readToken_eq_ok_iff.2 hfirst, ok_bind, ih.2 ⟨chunks, hothers, rfl⟩]
      rfl

/-- The first group that cannot be read is what the reading fails on. -/
theorem readTokens_error (h : readTokens tokens = .error e) : ∃ before token after,
    tokens = before ++ token :: after ∧ (∀ t ∈ before, ∃ bytes, Group true t bytes) ∧
      readToken token = .error e := by
  induction tokens with
  | nil => cases h
  | cons token rest ih =>
    cases htoken : readToken token with
    | error f =>
      rw [readTokens, htoken] at h
      cases h
      exact ⟨[], token, rest, rfl, by simp, htoken⟩
    | ok first =>
      cases hrest : readTokens rest with
      | ok others =>
        rw [readTokens, htoken, hrest] at h
        cases h
      | error f =>
        rw [readTokens, htoken, hrest] at h
        cases h
        rcases ih hrest with ⟨before, bad, after, rfl, hbefore, hbad⟩
        refine ⟨token :: before, bad, after, rfl, ?_, hbad⟩
        simpa [readToken_eq_ok_iff.1 htoken] using ⟨⟨first, readToken_eq_ok_iff.1 htoken⟩, hbefore⟩

theorem readToken_error (h : readToken token = .error e) :
    subject e = String.ofList token ∧ ¬ ∃ bytes, Group true token bytes := by
  refine ⟨?_, ?_⟩
  · unfold readToken at h
    dsimp only at h
    split_ifs at h
    · cases h
      rfl
    · exact readPairs_error h
  · rintro ⟨bytes, hgroup⟩
    rw [readToken_eq_ok_iff.2 hgroup] at h
    cases h

/-! The whole text. -/

theorem readCode_eq_ok_iff : readCode text = .ok bytes ↔ CodeText true text bytes := by
  unfold readCode
  rw [readTokens_eq_ok_iff, pieces_eq_splitOnP]
  rfl

theorem forall₂_group_false_iff {chunks : List (List UInt8)} :
    List.Forall₂ (Group false) tokens chunks ↔
      (∀ token ∈ tokens, '+' ∉ token) ∧ List.Forall₂ (Group true) tokens chunks := by
  rw [← List.forall₂_and_left]
  have hgroup : Group false = fun token bytes => '+' ∉ token ∧ Group true token bytes := by
    funext token bytes
    exact propext (group_false_iff.trans And.comm)
  rw [hgroup]

/-- The texts without plus signs among those that are read. -/
theorem codeText_false_iff : CodeText false text bytes ↔ CodeText true text bytes ∧ '+' ∉ text := by
  have hplus : '+' ∉ text ↔ ∀ token ∈ text.splitOnP isSeparator, '+' ∉ token := by
    rw [mem_splitOnP (show isSeparator '+' = false by decide)]
    simp
  unfold CodeText
  simp only [forall₂_group_false_iff, hplus]
  constructor
  · rintro ⟨chunks, ⟨hmem, hchunks⟩, hbytes⟩
    exact ⟨⟨chunks, hchunks, hbytes⟩, hmem⟩
  · rintro ⟨⟨chunks, hchunks, hbytes⟩, hmem⟩
    exact ⟨chunks, ⟨hmem, hchunks⟩, hbytes⟩

theorem isSeparator_of_value? (h : (value? c).isSome = true) : isSeparator c = false := by
  unfold isSeparator
  rw [isBlank_of_value? h, Bool.false_or, beq_eq_false_iff_ne]
  exact ne_of_value? h

theorem BytePairs.not_separator (h : BytePairs plus ds bytes) :
    ∀ c ∈ ds, isSeparator c = false := by
  have hdigit {c : Char} {v : Nat} (hc : IsDigit 16 c v) : isSeparator c = false := by
    apply isSeparator_of_value?
    rw [((isDigit_iff (by decide)).1 hc).1]
    rfl
  induction h with
  | nil => simp
  | cons hpair _ ih =>
    cases hpair with
    | digits hc hd => exact List.forall_mem_cons.2 ⟨hdigit hc, List.forall_mem_cons.2 ⟨hdigit hd, ih⟩⟩
    | signed _ hd => exact List.forall_mem_cons.2 ⟨by decide, List.forall_mem_cons.2 ⟨hdigit hd, ih⟩⟩

/-- No group is cut in two. -/
theorem Group.not_separator (h : Group plus token bytes) : ∀ c ∈ token, isSeparator c = false := by
  cases h with
  | bare h => exact h.not_separator
  | marked hx h =>
    rcases hx with rfl | rfl <;>
      exact List.forall_mem_cons.2 ⟨by decide, List.forall_mem_cons.2 ⟨by decide, h.not_separator⟩⟩

/-- Groups are read wherever they stand in a text, and whatever separates them. -/
theorem codeText_separated {others : List (Char × List Char)} {chunks : List (List UInt8)}
    (hseparators : ∀ other ∈ others, isSeparator other.1 = true)
    (hgroups : List.Forall₂ (Group plus) (token :: others.map Prod.snd) chunks) :
    CodeText plus (separated token others) chunks.flatten := by
  have hplain : List.Forall₂ (fun t bytes => (∀ c ∈ t, isSeparator c = false) ∧ Group plus t bytes)
      (token :: others.map Prod.snd) chunks :=
    hgroups.imp fun _ _ h => ⟨h.not_separator, h⟩
  rw [List.forall₂_and_left] at hplain
  rcases List.forall_mem_cons.1 hplain.1 with ⟨htoken, hothers⟩
  refine ⟨chunks, ?_, rfl⟩
  rw [splitOnP_separated htoken]
  · exact hgroups
  · intro other hother
    exact ⟨hseparators other hother, hothers other.2 (List.mem_map_of_mem hother)⟩

def byteDigits (large : Bool) (b : UInt8) : List Char :=
  padded 2 (if large then upperHex b.toNat else lowerHex b.toNat)

theorem padded_lowerHex (h : n < 256) :
    padded 2 (lowerHex n) = [Nat.digitChar (n / 16), Nat.digitChar (n % 16)] := by
  unfold lowerHex
  rw [Nat.toDigits_eq_if (by decide)]
  split_ifs with hsmall
  · rw [Nat.div_eq_of_lt hsmall, Nat.mod_eq_of_lt hsmall]
    rfl
  · rw [Nat.toDigits_of_lt_base (by omega)]
    rfl

theorem isDigit_digitChar (large : Bool) {v : Nat} (h : v < 16) :
    IsDigit 16 (if large then (Nat.digitChar v).toUpper else Nat.digitChar v) v := by
  have hcases : ∀ v < 16, (Nat.digitChar v).toLower = Nat.digitChar v ∧
      (Nat.digitChar v).toUpper.toLower = Nat.digitChar v := by decide
  cases large with
  | true => exact ⟨h, (hcases v h).2⟩
  | false => exact ⟨h, (hcases v h).1⟩

theorem bytePair_byteDigits (large : Bool) (b : UInt8) :
    ∃ c d, byteDigits large b = [c, d] ∧ BytePair false c d b := by
  have hb : b.toNat < 256 := b.toNat_lt
  have hhigh := isDigit_digitChar large (show b.toNat / 16 < 16 by omega)
  have hlow := isDigit_digitChar large (show b.toNat % 16 < 16 by omega)
  have hpair := @BytePair.digits false _ _ _ _ hhigh hlow
  rw [Nat.div_add_mod, UInt8.ofNat_toNat] at hpair
  refine ⟨_, _, ?_, hpair⟩
  have hlower := padded_lowerHex hb
  cases large with
  | false => exact hlower
  | true =>
    have hupper : byteDigits true b = (padded 2 (lowerHex b.toNat)).map Char.toUpper := by
      simp [byteDigits, padded, upperHex, lowerHex]
    rw [hupper, hlower]
    rfl

theorem bytePairs_byteDigits (large : Bool) (bytes : List UInt8) :
    BytePairs false (bytes.flatMap (byteDigits large)) bytes := by
  induction bytes with
  | nil => exact .nil
  | cons b rest ih =>
    rcases bytePair_byteDigits large b with ⟨c, d, hb, hpair⟩
    rw [List.flatMap_cons, hb]
    exact .cons hpair ih

/-- A text is read as machine code exactly if it consists of groups, and otherwise the reading fails
on the first group that is none. The texts with hexadecimal digits alone are those that are read and
hold no plus sign. Whatever separates groups, they are read as their bytes, and so are the digits of any
bytes in large letters or small ones. -/
theorem readCode_grammar (text : List Char) :
    (∀ bytes, readCode text = .ok bytes ↔ CodeText true text bytes) ∧
    (∀ bytes, CodeText false text bytes ↔ readCode text = .ok bytes ∧ '+' ∉ text) ∧
    ((∀ bytes, ¬ CodeText true text bytes) →
      ∃ before token after e, text.splitOnP isSeparator = before ++ token :: after ∧
        (∀ t ∈ before, ∃ bytes, Group true t bytes) ∧ (¬ ∃ bytes, Group true token bytes) ∧
        readCode text = .error e ∧ subject e = String.ofList token) ∧
    (∀ token others chunks, (∀ other ∈ others, isSeparator other.1 = true) →
      List.Forall₂ (Group false) (token :: others.map Prod.snd) chunks →
      text = separated token others → readCode text = .ok chunks.flatten) ∧
    ∀ large bytes, BytePairs false (bytes.flatMap (byteDigits large)) bytes := by
  refine ⟨fun bytes => readCode_eq_ok_iff, fun bytes => ?digits, ?refused, ?rendered,
    bytePairs_byteDigits⟩
  case digits => rw [readCode_eq_ok_iff, codeText_false_iff]
  case refused =>
    intro hnone
    cases hread : readCode text with
    | ok bytes => exact absurd (readCode_eq_ok_iff.1 hread) (hnone bytes)
    | error e =>
      rcases readTokens_error hread with ⟨before, token, after, hpieces, hbefore, htoken⟩
      rw [pieces_eq_splitOnP] at hpieces
      rcases readToken_error htoken with ⟨hsubject, hgroup⟩
      exact ⟨before, token, after, e, hpieces, hbefore, hgroup, rfl, hsubject⟩
  case rendered =>
    rintro token others chunks hseparators hgroups rfl
    have hcode := codeText_separated hseparators hgroups
    exact readCode_eq_ok_iff.2 (codeText_false_iff.1 hcode).1

/-- One digit behind a plus sign is read as a pair. Below it two groups, one of them marked, with two
separators between them. -/
theorem signedPair_read :
    readCode "+f".toList = .ok [0x0F] ∧ (∀ bytes, ¬ CodeText false "+f".toList bytes) ∧
    readCode "0x9a, C3".toList = .ok [0x9A, 0xC3] := by
  refine ⟨rfl, ?_, ?_⟩
  · intro bytes h
    have hplus := (((readCode_grammar "+f".toList).2.1 bytes).1 h).2
    exact absurd hplus (by decide)
  · have hfirst : Group false ['0', 'x', '9', 'a'] [0x9A] :=
      .marked (.inl rfl) (.cons (.digits (show IsDigit 16 '9' 9 by decide)
        (show IsDigit 16 'a' 10 by decide)) .nil)
    have hsecond : Group false ['C', '3'] [0xC3] :=
      .bare (.cons (.digits (show IsDigit 16 'C' 12 by decide)
        (show IsDigit 16 '3' 3 by decide)) .nil)
    have hnothing : Group false [] [] := .bare .nil
    exact (readCode_grammar "0x9a, C3".toList).2.2.2.1 ['0', 'x', '9', 'a']
      [(',', []), (' ', ['C', '3'])] [[0x9A], [], [0xC3]] (by decide)
      (.cons hfirst (.cons hnothing (.cons hsecond .nil))) (by decide)

end LongMode.Numeral

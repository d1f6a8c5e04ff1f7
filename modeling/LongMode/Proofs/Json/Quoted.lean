import LongMode.Json.Quoted
import Mathlib.Tactic
/-!
Quoted texts read back as they are written. What stands for one character is read as that character
whatever follows it, so that the closing quote is the first one that is not part of an escape.
-/

namespace LongMode.Json.Quoted

/-- The control characters are written as four hexadecimal digits. -/
theorem quad_padded {n : Nat} (hn : n < 0x20) (rest : List Char) :
    quad (Digits.padded 4 (Digits.lowerHex n) ++ rest) = .ok (n, rest) := by
  have hdigits : ∀ n < 0x20, (Digits.padded 4 (Digits.lowerHex n)).length = 4 ∧
      Numeral.byteLength (Digits.padded 4 (Digits.lowerHex n)) = 4 ∧
      Digits.continue? 16 0 (Digits.padded 4 (Digits.lowerHex n)) = some n := by
    decide +kernel
  obtain ⟨hlength, hbytes, hvalue⟩ := hdigits n hn
  generalize Digits.padded 4 (Digits.lowerHex n) = ds at hlength hbytes hvalue
  match ds, hlength with
  | [a, b, c, d], _ =>
    have hlong : ¬ Numeral.byteLength (List.take 4 ([a, b, c, d] ++ rest)) < 4 := by
      change ¬ Numeral.byteLength [a, b, c, d] < 4
      omega
    unfold quad
    rw [if_neg hlong]
    simp only [List.cons_append, List.nil_append, hvalue]

/-- What stands for a character starts with no quote and is read as the character. -/
theorem next_escape (c : Char) (rest : List Char) :
    next (escape c ++ rest) = .ok (c, rest) ∧ (escape c).head? ≠ some '"' ∧ escape c ≠ [] := by
  unfold escape
  split_ifs with hquote hslash hb hf hn hr ht hcontrol
  · subst hquote
    exact ⟨rfl, by decide, by decide⟩
  · subst hslash
    exact ⟨rfl, by decide, by decide⟩
  · subst hb
    exact ⟨rfl, by decide, by decide⟩
  · subst hf
    exact ⟨rfl, by decide, by decide⟩
  · subst hn
    exact ⟨rfl, by decide, by decide⟩
  · subst hr
    exact ⟨rfl, by decide, by decide⟩
  · subst ht
    exact ⟨rfl, by decide, by decide⟩
  · refine ⟨?_, by simp, by simp⟩
    have htrailing : isTrailing c.toNat = false := by
      unfold isTrailing
      rw [decide_eq_false (by omega), Bool.false_and]
    have hleading : isLeading c.toNat = false := by
      unfold isLeading
      rw [decide_eq_false (by omega), Bool.false_and]
    change (quad (Digits.padded 4 (Digits.lowerHex c.toNat) ++ rest) >>= _) = _
    rw [quad_padded hcontrol]
    change (if isTrailing c.toNat = true then _ else
      if isLeading c.toNat = true then _ else Except.ok (Char.ofNat c.toNat, rest)) = _
    rw [htrailing, hleading, Char.ofNat_toNat]
    rfl
  · refine ⟨?_, by simpa using hquote, by simp⟩
    change next (c :: rest) = _
    unfold next
    split
    · rename_i heq
      cases heq
    · rename_i heq
      cases heq
      exact absurd rfl hslash
    · rename_i heq
      cases heq
      exact if_neg hcontrol

theorem readUpTo_succ {text : List Char} (h : text.head? ≠ some '"') (count : Nat) :
    readUpTo (count + 1) text = (next text).bind fun s =>
      (readUpTo count s.2).bind fun t => .ok (s.1 :: t.1, t.2) := by
  rw [readUpTo]
  · rfl
  · rintro rest rfl
    exact h rfl

theorem readUpTo_escape (text rest : List Char) {count : Nat} (h : text.length ≤ count) :
    readUpTo count (text.flatMap escape ++ '"' :: rest) = .ok (text, rest) := by
  induction text generalizing count with
  | nil => cases count <;> rfl
  | cons c text ih =>
    obtain ⟨hnext, hhead, hne⟩ := next_escape c (text.flatMap escape ++ '"' :: rest)
    cases count with
    | zero => cases h
    | succ count =>
      have htext : (c :: text).flatMap escape ++ '"' :: rest =
          escape c ++ (text.flatMap escape ++ '"' :: rest) := by
        rw [List.flatMap_cons, List.append_assoc]
      rw [htext, readUpTo_succ, hnext]
      · change (readUpTo count (text.flatMap escape ++ '"' :: rest)).bind _ = _
        rw [ih (Nat.le_of_succ_le_succ h)]
        rfl
      · rwa [List.head?_append_of_ne_nil _ hne]

theorem length_le_escaped (text : List Char) : text.length ≤ (text.flatMap escape).length := by
  induction text with
  | nil => exact Nat.zero_le _
  | cons c text ih =>
    have hne := List.length_pos_iff.2 (next_escape c []).2.2
    rw [List.length_cons, List.flatMap_cons, List.length_append]
    omega

/-- A text is read back, and what follows its closing quote is left. -/
theorem read_encode (text rest : List Char) :
    read (text.flatMap escape ++ '"' :: rest) = .ok (text, rest) := by
  have hlength := length_le_escaped text
  refine readUpTo_escape text rest ?_
  rw [List.length_append]
  omega

end LongMode.Json.Quoted

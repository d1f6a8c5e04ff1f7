import LongMode.Proofs.Listing.Chain
/-!
Decoding again. From its start on it follows the chain and puts the lines of the chain in the place
of what was there; in front of the start and behind its end nothing changes. It ends where the chain
does or at a line that is still there behind the edited bytes.
-/

namespace LongMode.Listing

variable {m : Machine} {edited : UInt64} {b : UInt64} {line : Line}

/-- What decoding again from the state `r` came to in the state `t`. -/
structure Continues (m : Machine) (edited : UInt64) (r t : Redecoded) : Prop where
  reaches : Reaches m r.ip t.ip
  front : ∀ b, b < r.ip → t.lines[b]? = r.lines[b]?
  back : ∀ b, t.ip ≤ b → t.lines[b]? = r.lines[b]?
  between : ∀ (b : UInt64) (line : Line), r.ip ≤ b → b < t.ip →
    (t.lines[b]? = some line ↔ Reaches m r.ip b ∧ decode? m b = some line)
  ends : decode? m t.ip = none ∨ edited ≤ t.ip ∧ t.lines.contains t.ip = true

/-- Decoding again that does not go on has come to nothing. -/
theorem Continues.refl {r t : Redecoded} (hl : t.lines = r.lines) (hi : t.ip = r.ip)
    (h : decode? m r.ip = none ∨ edited ≤ r.ip ∧ r.lines.contains r.ip = true) :
    Continues m edited r t where
  reaches := by rw [hi]; exact .refl _
  front _ _ := by rw [hl]
  back _ _ := by rw [hl]
  between b line hb hlt := by
    rw [hi] at hlt
    exact absurd (UInt64.lt_of_le_of_lt hb hlt) (UInt64.lt_irrefl _)
  ends := by rw [hl, hi]; exact h

/-- The line found at the instruction pointer, in the place of the lines that it covers. -/
def found (r : Redecoded) (line : Line) : Redecoded where
  lines := (r.lines.dropRange r.ip line.stop).insert line.address line
  tried := r.ip :: r.tried
  found := r.found + 1
  ip := line.stop

theorem found_getElem? {r : Redecoded} (hd : decode? m r.ip = some line)
    (b : UInt64) : (found r line).lines[b]? =
      if b = r.ip then some line else if r.ip ≤ b ∧ b < line.stop then none else r.lines[b]? := by
  unfold found
  rw [Std.ExtTreeMap.getElem?_insert, address_of_decode? hd, Lines.getElem?_dropRange]
  by_cases h : b = r.ip
  · simp [h]
  · simp [h, Ne.symm h]

theorem Continues.next {r t : Redecoded} (hs : Straight m) (hd : decode? m r.ip = some line)
    (h : Continues m edited (found r line) t) : Continues m edited r t := by
  have hlt := lt_stop_of_decode? hs hd
  have hle := h.reaches.le hs
  refine ⟨.next hd h.reaches, fun b hb => ?_, fun b hb => ?_, fun b other hb hbt => ?_, h.ends⟩
  · rw [h.front b (UInt64.lt_trans hb hlt), found_getElem? hd, if_neg, if_neg]
    · exact fun hn => absurd (UInt64.lt_of_le_of_lt hn.1 hb) (UInt64.lt_irrefl _)
    · rintro rfl
      exact UInt64.lt_irrefl _ hb
  · have hbs : line.stop ≤ b := UInt64.le_trans hle hb
    rw [h.back b hb, found_getElem? hd, if_neg, if_neg]
    · exact fun hn => absurd (UInt64.lt_of_lt_of_le hn.2 hbs) (UInt64.lt_irrefl _)
    · rintro rfl
      exact UInt64.lt_irrefl _ (UInt64.lt_of_lt_of_le hlt hbs)
  · by_cases hbs : b < line.stop
    · rw [h.front b hbs, found_getElem? hd]
      by_cases hbr : b = r.ip
      · rw [if_pos hbr, hbr, hd]
        exact ⟨fun he => ⟨.refl _, he⟩, fun he => he.2⟩
      · rw [if_neg hbr, if_pos ⟨hb, hbs⟩]
        refine ⟨nofun, fun ⟨hreach, _⟩ => ?_⟩
        cases hreach with
        | refl => exact absurd rfl hbr
        | next hd' hreach =>
          rw [hd] at hd'
          cases hd'
          exact absurd (UInt64.lt_of_le_of_lt (hreach.le hs) hbs) (UInt64.lt_irrefl _)
    · have hbs : line.stop ≤ b := UInt64.not_lt.1 hbs
      rw [h.between b other hbs hbt]
      refine and_congr_left fun _ => ⟨.next hd, fun hreach => ?_⟩
      exact ((Reaches.refl r.ip).snoc hd).total hs hreach hbs

theorem redecode_continues (hs : Straight m) (fuel : Nat) (r : Redecoded)
    (hf : m.memory.codeEnd.toNat ≤ r.ip.toNat + fuel) :
    Continues m edited r (redecode m edited fuel r) := by
  induction fuel generalizing r with
  | zero =>
    refine .refl rfl rfl (.inl (decode?_outside (not_inCode_of_codeEnd_le ?_)))
    rw [UInt64.le_iff_toNat_le]
    omega
  | succ fuel ih =>
    unfold redecode
    split_ifs with hend hsync
    · exact .refl rfl rfl (.inl (decode?_outside (not_inCode_of_codeEnd_le hend)))
    · rw [Bool.and_eq_true, decide_eq_true_eq] at hsync
      exact .refl rfl rfl (.inr hsync)
    · cases hd : decode? m r.ip with
      | none => exact .refl rfl rfl (.inl hd)
      | some line =>
        have hlt := UInt64.lt_iff_toNat_lt.1 (lt_stop_of_decode? hs hd)
        refine Continues.next hs hd (ih (found r line) ?_)
        change m.memory.codeEnd.toNat ≤ line.stop.toNat + fuel
        omega

end LongMode.Listing

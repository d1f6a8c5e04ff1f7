import LongMode.Listing
import Mathlib.Tactic
/-!
The lines of a listing as a map from addresses: what a dropped range leaves, which line covers an
address, and that a listing shows as much as the map holds. As a list, they can tile a range of
addresses.
-/

namespace LongMode.Lines

variable {lines : Lines} {a b start stop : UInt64} {line : Line}

theorem getElem?_dropRange (lines : Lines) (start stop b : UInt64) :
    (lines.dropRange start stop)[b]? = if start ≤ b ∧ b < stop then none else lines[b]? := by
  unfold dropRange
  rw [Std.ExtTreeMap.getElem?_filter']
  cases hb : lines[b]? with
  | none => simp
  | some line =>
    by_cases h : start ≤ b ∧ b < stop
    · simp [h.1, h.2]
    · rw [if_neg h, Option.filter_some, if_pos]
      simpa [-not_and, Decidable.not_and_iff_or_not] using h

theorem ext_some {l l' : Lines}
    (h : ∀ (b : UInt64) (line : Line), l[b]? = some line ↔ l'[b]? = some line) : l = l' :=
  Std.ExtTreeMap.ext_getElem? fun b => Option.ext fun line => h b line

/-- Lines that are told apart by their addresses are all kept. -/
theorem getElem?_ofList {ls : List Line} (hd : ∀ x ∈ ls, ∀ y ∈ ls, x.address = y.address → x = y) :
    (Std.ExtTreeMap.ofList (ls.map fun l => (l.address, l)) : Lines)[b]? = some line ↔
      line ∈ ls ∧ line.address = b := by
  rw [Std.ExtTreeMap.ofList_eq_insertMany_empty, Std.ExtTreeMap.getElem?_insertMany_list,
    Std.ExtTreeMap.getElem?_empty, Option.or_none, List.findSomeRev?_eq_findSome?_reverse,
    ← List.map_reverse, List.findSome?_map]
  have value {x y : Line} : (if compare x.address b = .eq then some x else none) = some y ↔
      x = y ∧ y.address = b := by
    split_ifs with h
    · have h := Std.compare_eq_iff_eq.1 h
      rw [Option.some.injEq]
      constructor
      · rintro rfl
        exact ⟨rfl, h⟩
      · exact And.left
    · simp only [false_iff]
      rintro ⟨rfl, h'⟩
      exact h (Std.compare_eq_iff_eq.2 h')
  constructor
  · intro h
    obtain ⟨x, hx, hxl⟩ := List.exists_of_findSome?_eq_some h
    obtain ⟨rfl, hb⟩ := value.1 hxl
    exact ⟨List.mem_reverse.1 hx, hb⟩
  · rintro ⟨hmem, hb⟩
    cases hf : ls.reverse.findSome? _ with
    | none =>
      have := List.findSome?_eq_none_iff.1 hf line (List.mem_reverse.2 hmem)
      have h' := value.2 ⟨rfl, hb⟩
      exact absurd (this.symm.trans h') (by simp)
    | some y =>
      obtain ⟨x, hx, hxl⟩ := List.exists_of_findSome?_eq_some hf
      obtain ⟨rfl, hxb⟩ := value.1 hxl
      rw [hd _ (List.mem_reverse.1 hx) line hmem (hxb.trans hb.symm)]

/-- The entry at or below an address is the last one that is not above it. -/
theorem getEntryLE?_eq_findRev? (lines : Lines) (a : UInt64) :
    lines.getEntryLE? a = lines.toList.findRev? (fun e => (compare e.1 a).isLE) := by
  obtain ⟨t⟩ := lines
  induction t using Std.ExtDTreeMap.inductionOn with
  | mk t =>
    change Std.DTreeMap.Internal.Impl.Const.getEntryLE? a t.inner =
      (Std.DTreeMap.Internal.Impl.Const.toList t.inner).findRev? _
    rw [Std.DTreeMap.Internal.Impl.Const.getEntryLE?_eq_map,
      Std.DTreeMap.Internal.Impl.getEntryLE?_eq_findRev? t.wf.ordered,
      Std.DTreeMap.Internal.Impl.Const.toList_eq_toListModel_map, List.findRev?_eq_find?_reverse,
      List.findRev?_eq_find?_reverse, ← List.map_reverse, List.find?_map]
    rfl

theorem getEntryLE?_eq_some (h : lines.getEntryLE? a = some (start, line)) :
    lines[start]? = some line ∧ start ≤ a ∧
      ∀ (b : UInt64) (other : Line), lines[b]? = some other → b ≤ a → b ≤ start := by
  rw [getEntryLE?_eq_findRev?, List.findRev?_eq_find?_reverse,
    List.find?_eq_some_iff_append] at h
  obtain ⟨hle, above, below, hsplit, habove⟩ := h
  have hle : start ≤ a := (Std.LawfulOrderOrd.isLE_compare start a).1 hle
  have hmem : (start, line) ∈ lines.toList := by
    rw [← List.mem_reverse, hsplit]
    simp
  refine ⟨Std.ExtTreeMap.mem_toList_iff_getElem?_eq_some.1 hmem, hle, fun b other hb hba => ?_⟩
  have hb : (b, other) ∈ lines.toList.reverse :=
    List.mem_reverse.2 (Std.ExtTreeMap.mem_toList_iff_getElem?_eq_some.2 hb)
  have hsorted := List.pairwise_reverse.2 (Std.ExtTreeMap.ordered_keys_toList (t := lines))
  rw [hsplit] at hb hsorted
  rw [List.mem_append, List.mem_cons] at hb
  rcases hb with hb | hb | hb
  · have hn := habove _ hb
    have hc := (Std.LawfulOrderOrd.isLE_compare b a).2 hba
    simp [hc] at hn
  · cases hb
    exact UInt64.le_refl _
  · have hlt := (List.pairwise_cons.1 (List.pairwise_append.1 hsorted).2.1).1 _ hb
    exact UInt64.le_of_lt (Std.compare_eq_lt.1 hlt)

theorem getEntryLE?_eq_none (h : lines.getEntryLE? a = none) (hb : lines[b]? = some line) :
    a < b := by
  rw [getEntryLE?_eq_findRev?, List.findRev?_eq_find?_reverse, List.find?_eq_none] at h
  have hn := h (b, line)
    (List.mem_reverse.2 (Std.ExtTreeMap.mem_toList_iff_getElem?_eq_some.2 hb))
  rw [Std.LawfulOrderOrd.isLE_compare] at hn
  exact UInt64.not_le.1 hn

/-- Either a line covers the address and starts at `startAt`, or the last line that starts at or
below the address does not reach it. -/
theorem startAt_cases (lines : Lines) (a : UInt64) :
    (∃ line, lines[lines.startAt a]? = some line ∧ lines.startAt a ≤ a ∧ a < line.stop) ∨
    (lines.startAt a = a ∧ ∀ (b : UInt64) (line : Line), lines[b]? = some line → b ≤ a →
      (∀ (c : UInt64) (other : Line), lines[c]? = some other → c ≤ a → c ≤ b) → line.stop ≤ a) := by
  unfold startAt
  cases h : lines.getEntryLE? a with
  | none =>
    refine .inr ⟨rfl, fun b line hb hba => ?_⟩
    have := getEntryLE?_eq_none h hb
    grind
  | some e =>
    obtain ⟨start, line⟩ := e
    obtain ⟨hline, hle, hmax⟩ := getEntryLE?_eq_some h
    dsimp only
    split_ifs with hcover
    · exact .inl ⟨line, hline, hle, hcover⟩
    · refine .inr ⟨rfl, fun b other hb hba hbmax => ?_⟩
      have hbs : b = start := UInt64.le_antisymm (hmax b other hb hba) (hbmax start line hline hle)
      rw [hbs, hline] at hb
      cases hb
      exact UInt64.not_lt.1 hcover

/-- Nothing is hidden: a listing whose lines stand at their own addresses, none of them at `rip`,
shows all of them as they are. -/
theorem eq_of_shown_eq {l l' : Lines} {rip : UInt64}
    (hl : ∀ (b : UInt64) (line : Line), l[b]? = some line → line.address = b ∧ b ≠ rip)
    (hl' : ∀ (b : UInt64) (line : Line), l'[b]? = some line → line.address = b ∧ b ≠ rip)
    (h : l.shown rip = l'.shown rip) : l = l' := by
  have plain {t : Lines}
      (ht : ∀ (b : UInt64) (line : Line), t[b]? = some line → line.address = b ∧ b ≠ rip) :
      (t.shown rip).map (fun line => (line.address, line)) = t.toList := by
    unfold shown
    rw [List.map_map]
    conv_rhs => rw [← List.map_id t.toList]
    refine List.map_congr_left fun e he => ?_
    obtain ⟨hkey, hne⟩ := ht _ _ (Std.ExtTreeMap.mem_toList_iff_getElem?_eq_some.1 he)
    simp [hkey, hne]
  apply Std.ExtTreeMap.toList_inj.1
  rw [← plain hl, ← plain hl', h]

end LongMode.Lines

namespace LongMode.Listing

/-- The lines stand one behind the other from `a` up to `b`, each with bytes of its own. -/
def Tiles : UInt64 → List Line → UInt64 → Prop
  | a, [], b => a = b
  | a, line :: rest, b => line.address = a ∧ a < line.stop ∧ Tiles line.stop rest b

namespace Tiles

variable {a b : UInt64} {line : Line} {lines : List Line}

theorem length_le (h : Tiles a lines b) : a.toNat + lines.length ≤ b.toNat := by
  induction lines generalizing a with
  | nil =>
    cases h
    simp
  | cons line rest ih =>
    obtain ⟨-, hlt, hrest⟩ := h
    have hle := ih hrest
    rw [UInt64.lt_iff_toNat_lt] at hlt
    rw [List.length_cons]
    omega

theorem le (h : Tiles a lines b) : a ≤ b := by
  have hle := h.length_le
  rw [UInt64.le_iff_toNat_le]
  omega

theorem le_address (h : Tiles a lines b) (hmem : line ∈ lines) : a ≤ line.address := by
  induction lines generalizing a with
  | nil => exact absurd hmem List.not_mem_nil
  | cons first rest ih =>
    obtain ⟨haddress, hlt, hrest⟩ := h
    rcases List.mem_cons.1 hmem with rfl | hmem
    · exact UInt64.le_of_eq haddress.symm
    · exact UInt64.le_of_lt (UInt64.lt_of_lt_of_le hlt (ih hrest hmem))

/-- No two lines overlap. -/
theorem sorted (h : Tiles a lines b) : (lines.map Line.address).Pairwise (· < ·) := by
  induction lines generalizing a with
  | nil => exact List.Pairwise.nil
  | cons first rest ih =>
    obtain ⟨haddress, hlt, hrest⟩ := h
    rw [List.map_cons, List.pairwise_cons, haddress]
    refine ⟨fun c hc => ?_, ih hrest⟩
    obtain ⟨line, hmem, rfl⟩ := List.mem_map.1 hc
    exact UInt64.lt_of_lt_of_le hlt (hrest.le_address hmem)

theorem lt_stop (h : Tiles a lines b) (hmem : line ∈ lines) : line.address < line.stop := by
  induction lines generalizing a with
  | nil => exact absurd hmem List.not_mem_nil
  | cons first rest ih =>
    obtain ⟨haddress, hlt, hrest⟩ := h
    rcases List.mem_cons.1 hmem with rfl | hmem
    · rwa [haddress]
    · exact ih hrest hmem

theorem length_pos (h : Tiles a lines b) (hmem : line ∈ lines) : 1 ≤ line.length := by
  have hlt := h.lt_stop hmem
  by_contra hlength
  have hzero : line.length = 0 := by
    rw [UInt64.le_iff_toNat_le] at hlength
    apply UInt64.toNat_inj.1
    have hone : (1 : UInt64).toNat = 1 := rfl
    have hnone : (0 : UInt64).toNat = 0 := rfl
    omega
  rw [Line.stop, hzero, UInt64.add_zero] at hlt
  exact UInt64.lt_irrefl _ hlt

/-- As many lines as there is room for have one byte each. -/
theorem stop_of_full (h : Tiles a lines b) (hfull : b.toNat ≤ a.toNat + lines.length)
    (hmem : line ∈ lines) : line.stop.toNat = line.address.toNat + 1 := by
  induction lines generalizing a with
  | nil => exact absurd hmem List.not_mem_nil
  | cons first rest ih =>
    obtain ⟨haddress, hlt, hrest⟩ := h
    have hle := hrest.length_le
    rw [UInt64.lt_iff_toNat_lt] at hlt
    rw [List.length_cons] at hfull
    rcases List.mem_cons.1 hmem with rfl | hmem
    · rw [haddress]
      omega
    · exact ih hrest (by omega) hmem

/-- The last of the lines stops where the tiling does. -/
theorem exists_concat (h : Tiles a lines b) (hlt : a < b) : ∃ front last,
    lines = front ++ [last] ∧ Tiles a front last.address ∧ last.stop = b := by
  induction lines generalizing a with
  | nil =>
    cases h
    exact absurd hlt (UInt64.lt_irrefl _)
  | cons line rest ih =>
    obtain ⟨haddress, hline, hrest⟩ := h
    by_cases hmore : line.stop < b
    · obtain ⟨front, last, rfl, hfront, hlast⟩ := ih hrest hmore
      exact ⟨line :: front, last, rfl, ⟨haddress, hline, hfront⟩, hlast⟩
    · have hstop : line.stop = b := UInt64.le_antisymm hrest.le (UInt64.not_lt.1 hmore)
      have hnone : rest = [] := by
        have hcount := hrest.length_le
        rw [hstop] at hcount
        exact List.eq_nil_of_length_eq_zero (by omega)
      subst hnone
      exact ⟨[], line, rfl, haddress.symm, hstop⟩

end Tiles

end LongMode.Listing

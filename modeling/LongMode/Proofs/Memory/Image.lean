import LongMode.Proofs.Memory.BitString
import LongMode.Proofs.Memory.Layout
/-!
The program in memory replaced by another one. Whatever else is done to a memory, its program stays
where it was loaded and its segment ends where the program ends, so that a new program finds a range of
bytes to forget wherever the old one does not wrap. Of the old program nothing is left, and no byte,
segment or setting that is not the program's changes.
-/

namespace LongMode.Memory

variable {m n : Memory} {origin start stop a x : UInt64} {code : List UInt8} {e : Edit}
  {edits : List Edit}

theorem getElem?_cells_erase (m : Memory) (start stop x : UInt64) :
    (m.erase start stop).cells[x]? = if start ≤ x ∧ x < stop then none else m.cells[x]? := by
  unfold erase
  rw [Std.ExtTreeMap.getElem?_filter']
  by_cases h : start ≤ x ∧ x < stop
  · simp [h]
  · rw [if_neg h]
    cases m.cells[x]? with
    | none => rfl
    | some b => exact Option.filter_some_pos (by rw [← Bool.decide_and, decide_eq_false h]; rfl)

/-! The place of the program. -/

/-- The program starts at `origin`, and its segment ends where the program ends. -/
def Placed (m : Memory) (origin : UInt64) : Prop :=
  m.segment? codeSegment = some ⟨codeSegment, origin, m.codeEnd⟩

def Edit.Spares : Edit → Prop
  | .addSegment s => s.name ≠ codeSegment
  | .flash _ | .write .. | .writeWord .. | .setStrict _ => True

/-- A program that the edit flashes at `origin` does not wrap around the end of the addresses. -/
def Edit.Fits (origin : UInt64) : Edit → Prop
  | .flash code => origin.toNat + code.length < 2 ^ 64
  | .addSegment _ | .write .. | .writeWord .. | .setStrict _ => True

/-- The memory `n` is `m` with the program from `start` up to but not including `stop` replaced by
`code`. -/
structure Replaced (m n : Memory) (start stop : UInt64) (code : List UInt8) : Prop where
  written : ∀ i (h : i < code.length), n.cells[start + UInt64.ofNat i]? = some code[i]
  forgotten : ∀ x, start.toNat + code.length ≤ x.toNat → x < stop →
    n.cells[x]? = none ∧ n.peek x = 0
  kept : ∀ x, x < start ∨ stop ≤ x ∧ start.toNat + code.length ≤ x.toNat →
    n.cells[x]? = m.cells[x]?
  segment : n.segment? codeSegment =
    some ⟨codeSegment, start, start + UInt64.ofNat code.length⟩
  codeEnd : n.codeEnd = start + UInt64.ofNat code.length
  strict : n.strict = m.strict
  /-- The other segments are the same ones in the same order. -/
  others : n.segments.filter (·.name != codeSegment) = m.segments.filter (·.name != codeSegment)

namespace Placed

theorem congr (h : m.Placed origin) (hsegments : n.segments = m.segments)
    (hend : n.codeEnd = m.codeEnd) : n.Placed origin := by
  unfold Placed segment? at h ⊢
  rw [hsegments, hend, h]

theorem grows (h : m.Placed origin) (hn : m.Grows n) : n.Placed origin :=
  h.congr hn.segments hn.codeEnd

theorem load (origin : UInt64) (code : List UInt8) : (load origin code).Placed origin := by
  have hbare : Placed ⟨∅, [⟨codeSegment, origin, origin + UInt64.ofNat code.length⟩,
      ⟨".heap", 0x40_0001, 0x60_0000⟩, ⟨".stack", 0x60_0000, stackTop⟩],
      origin + UInt64.ofNat code.length, false⟩ origin := by
    simp [Placed, segment?]
  exact hbare.grows (.write _ origin code)

theorem addSegment (h : m.Placed origin) {s : Segment} (hs : s.name ≠ codeSegment) :
    (m.addSegment s).Placed origin := by
  unfold Placed
  rw [segment?_addSegment, if_neg hs]
  exact h

theorem entry (h : m.Placed origin) : m.entry = origin := by
  unfold Memory.entry
  rw [h]
  rfl

/-- The segment and the end of a flashed program, also if it wraps. -/
theorem flash (h : m.Placed origin) (hn : m.flash code = .ok n) :
    n.Placed origin ∧ n.codeEnd = origin + UInt64.ofNat code.length := by
  rcases flash_map hn with ⟨hsegments, hend⟩
  rw [h.entry] at hsegments hend
  refine ⟨?_, hend⟩
  unfold Placed segment?
  rw [hsegments, hend]
  exact (segment?_addSegment m _ codeSegment).trans (if_pos rfl)

/-! The bytes under a flashed program. -/

/-- The bytes of the old program are forgotten, the segment and the end of the program are set anew,
and the new program is written. -/
theorem flash_eq (h : m.Placed origin) (hle : origin ≤ m.codeEnd) (code : List UInt8) :
    m.flash code = .ok (Memory.write
      { (m.erase origin m.codeEnd).addSegment
          ⟨codeSegment, origin, origin + UInt64.ofNat code.length⟩ with
        codeEnd := origin + UInt64.ofNat code.length } origin code) := by
  unfold Memory.flash
  rw [h.entry, h]
  dsimp only
  rw [if_pos hle]
  rfl

theorem getElem?_cells_flash (h : m.Placed origin) (hle : origin ≤ m.codeEnd)
    (hfits : origin.toNat + code.length < 2 ^ 64) (hn : m.flash code = .ok n) (x : UInt64) :
    n.cells[x]? = (code[(x - origin).toNat]?.map some).getD
      (if origin ≤ x ∧ x < m.codeEnd then none else m.cells[x]?) := by
  rw [h.flash_eq hle code] at hn
  cases hn
  rw [getElem?_cells_write _ _ _ (by omega)]
  exact congrArg _ (getElem?_cells_erase m origin m.codeEnd x)

theorem replaced (h : m.Placed origin) (hle : origin ≤ m.codeEnd)
    (hfits : origin.toNat + code.length < 2 ^ 64) (hn : m.flash code = .ok n) :
    m.Replaced n origin m.codeEnd code := by
  have hcells := h.getElem?_cells_flash hle hfits hn
  rcases h.flash hn with ⟨hplaced, hend⟩
  -- behind the new program no byte of it is written
  have hbehind (x : UInt64) (hx : origin.toNat + code.length ≤ x.toNat) :
      code[(x - origin).toNat]? = none := by
    have hle : origin ≤ x := UInt64.le_iff_toNat_le.2 (by omega)
    apply List.getElem?_eq_none
    rw [UInt64.toNat_sub_of_le x origin hle]
    omega
  refine ⟨?written, ?forgotten, ?kept, ?segment, hend, ?strict, ?others⟩
  case written =>
    intro i hi
    rw [hcells, toNat_offset (by omega), List.getElem?_eq_getElem hi]
    rfl
  case forgotten =>
    intro x hx hstop
    have hle : origin ≤ x := UInt64.le_iff_toNat_le.2 (by omega)
    have hnone : n.cells[x]? = none := by
      rw [hcells, hbehind x hx, if_pos ⟨hle, hstop⟩]
      rfl
    refine ⟨hnone, ?_⟩
    unfold peek
    rw [hnone]
    rfl
  case kept =>
    intro x hx
    rw [hcells]
    rcases hx with hlt | ⟨hstop, hx⟩
    · -- in front of the program the offset goes around the end of the addresses
      have hnone : code[(x - origin).toNat]? = none := by
        have hlt := UInt64.lt_iff_toNat_lt.1 hlt
        have horigin := origin.toNat_lt
        apply List.getElem?_eq_none
        rw [UInt64.toNat_sub]
        omega
      rw [hnone, if_neg (fun hin => UInt64.not_le.2 hlt hin.1)]
      rfl
    · rw [hbehind x hx, if_neg (fun hin => UInt64.not_lt.2 hstop hin.2)]
      rfl
  case segment =>
    rw [← hend]
    exact hplaced
  case strict =>
    rw [h.flash_eq hle code] at hn
    cases hn
    exact (Grows.write _ origin code).strict
  case others =>
    rw [(flash_map hn).1, h.entry]
    unfold Memory.addSegment
    rw [List.filter_append, List.filter_filter]
    simp

/-! One edit after the other. -/

theorem apply (h : m.Placed origin) (he : e.Spares) (hn : m.apply e = .ok n) :
    n.Placed origin := by
  cases e with
  | write a bytes =>
    cases hn
    exact h.grows (.write m a bytes)
  | writeWord a w v =>
    cases hn
    exact h.grows (.write m a _)
  | addSegment s =>
    cases hn
    exact h.addSegment he
  | setStrict strict =>
    cases hn
    exact h.congr rfl rfl
  | flash code => exact (h.flash hn).1

theorem applyAll (h : m.Placed origin) (hedits : ∀ e ∈ edits, e.Spares)
    (hn : applyAll m edits = .ok n) : n.Placed origin := by
  induction edits generalizing m with
  | nil =>
    cases hn
    exact h
  | cons e edits ih =>
    rcases ok_of_bind hn with ⟨k, hk, hn⟩
    rw [List.forall_mem_cons] at hedits
    exact ih (h.apply hedits.1 hk) hedits.2 hn

/-- An edit that does not wrap leaves a program that does not end before it starts. -/
theorem exists_apply (h : m.Placed origin) (hle : origin ≤ m.codeEnd) (hfits : e.Fits origin) :
    ∃ n, m.apply e = .ok n ∧ origin ≤ n.codeEnd := by
  cases e with
  | write a bytes =>
    refine ⟨_, rfl, ?_⟩
    rw [(Grows.write m a bytes).codeEnd]
    exact hle
  | writeWord a w v =>
    refine ⟨_, rfl, ?_⟩
    unfold writeWord
    rw [(Grows.write m a _).codeEnd]
    exact hle
  | addSegment s => exact ⟨_, rfl, hle⟩
  | setStrict strict => exact ⟨_, rfl, hle⟩
  | flash code =>
    have hn := h.flash_eq hle code
    refine ⟨_, hn, ?_⟩
    rw [(h.flash hn).2]
    exact le_stop hfits

theorem exists_applyAll (h : m.Placed origin) (hle : origin ≤ m.codeEnd)
    (hedits : ∀ e ∈ edits, e.Spares) (hfits : ∀ e ∈ edits, e.Fits origin) :
    ∃ n, Memory.applyAll m edits = .ok n ∧ origin ≤ n.codeEnd := by
  induction edits generalizing m with
  | nil => exact ⟨m, rfl, hle⟩
  | cons e edits ih =>
    rw [List.forall_mem_cons] at hedits hfits
    rcases h.exists_apply hle hfits.1 with ⟨k, hk, hle⟩
    rcases ih (h.apply hedits.1 hk) hle hedits.2 hfits.2 with ⟨n, hn, hle⟩
    refine ⟨n, ?_, hle⟩
    unfold Memory.applyAll at hn ⊢
    rw [List.foldlM_cons, hk]
    exact hn

end Placed

/-- After whatever has been done to a memory with a program, another program takes the place of the
one that is there, and everything else stays. The program that is there does not end before it starts
if neither it nor one before it has wrapped around the end of the addresses. -/
theorem flash_replaces (origin : UInt64) (first : List UInt8) (edits : List Edit)
    (hedits : ∀ e ∈ edits, e.Spares) :
    (∀ m, applyAll (load origin first) edits = .ok m →
      ∃ stop, m.segment? codeSegment = some ⟨codeSegment, origin, stop⟩ ∧
        ∀ code : List UInt8, origin ≤ stop → origin.toNat + code.length < 2 ^ 64 →
          ∃ n, m.flash code = .ok n ∧ m.Replaced n origin stop code) ∧
    (origin.toNat + first.length < 2 ^ 64 → (∀ e ∈ edits, e.Fits origin) →
      ∃ m stop, applyAll (load origin first) edits = .ok m ∧
        m.segment? codeSegment = some ⟨codeSegment, origin, stop⟩ ∧ origin ≤ stop) := by
  have hload := Placed.load origin first
  refine ⟨?replaces, ?exist⟩
  case replaces =>
    intro m hm
    have hplaced := hload.applyAll hedits hm
    refine ⟨m.codeEnd, hplaced, ?_⟩
    intro code hle hcode
    have hn := hplaced.flash_eq hle code
    exact ⟨_, hn, hplaced.replaced hle hcode hn⟩
  case exist =>
    intro hfirst hfits
    have hend : (load origin first).codeEnd = origin + UInt64.ofNat first.length :=
      (Grows.write _ origin first).codeEnd
    have hle : origin ≤ (load origin first).codeEnd := hend ▸ le_stop hfirst
    rcases hload.exists_applyAll hle hedits hfits with ⟨m, hm, hle⟩
    exact ⟨m, m.codeEnd, hm, hload.applyAll hedits hm, hle⟩

/-- A guest that has written over the end of its program and behind it. -/
def overrun : List Edit :=
  [.write 0x1003 [7, 8, 9], .setStrict true, .addSegment ⟨".data", 0x2000, 0x3000⟩]

theorem overrun_replaced : (∀ e ∈ overrun, e.Spares) ∧ (∀ e ∈ overrun, e.Fits 0x1000) ∧
    ∃ m n, applyAll (load 0x1000 [1, 2, 3, 4]) overrun = .ok m ∧
      m.flash [5, 6] = .ok n ∧ m.Replaced n 0x1000 0x1004 [5, 6] ∧
      m.dump 0x1000 7 = [1, 2, 3, 7, 8, 9, 0] ∧ n.dump 0x1000 7 = [5, 6, 0, 0, 8, 9, 0] := by
  have hedits : ∀ e ∈ overrun, e.Spares := by simp [overrun, Edit.Spares, codeSegment]
  have hfits : ∀ e ∈ overrun, e.Fits 0x1000 := by simp [overrun, Edit.Fits]
  refine ⟨hedits, hfits, ?_⟩
  rcases flash_replaces 0x1000 [1, 2, 3, 4] overrun hedits with ⟨hreplaces, hexist⟩
  rcases hexist (by decide) hfits with ⟨m, stop, hm, hsegment, hle⟩
  rcases hreplaces m hm with ⟨stop', hsegment', hflash⟩
  cases hm
  cases hsegment
  cases hsegment'
  rcases hflash [5, 6] hle (by decide) with ⟨n, hn, hreplaced⟩
  refine ⟨_, n, rfl, hn, hreplaced, by decide, ?_⟩
  cases hn
  decide +kernel

end LongMode.Memory

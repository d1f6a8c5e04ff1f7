import LongMode.Proofs.Memory
/-!
The map of a memory under its operations. Segments keep names of their own whatever is done. The end
of the program is kept twice, in the code segment and on its own, and the two agree exactly while no
segment put under the program's name by hand ends elsewhere. Such a segment that ends before it
starts is also all that makes an operation fail: the next program flashed over it finds a range that
is none.
-/

namespace LongMode.Memory

inductive Edit where
  | write (a : UInt64) (bytes : List UInt8)
  | writeWord (a : UInt64) (w : Width) (v : UInt64)
  | addSegment (s : Segment)
  | setStrict (strict : Bool)
  | flash (code : List UInt8)

def apply (m : Memory) : Edit → Except Misuse Memory
  | .write a bytes => .ok (m.write a bytes)
  | .writeWord a w v => .ok (m.writeWord a w v)
  | .addSegment s => .ok (m.addSegment s)
  | .setStrict strict => .ok { m with strict }
  | .flash code => m.flash code

def applyAll (m : Memory) (edits : List Edit) : Except Misuse Memory := edits.foldlM apply m

/-- A memory as it is made: without anything in it, or with a program whose addresses do not wrap. -/
inductive Made : Memory → Prop
  | empty : Made .empty
  | load (origin : UInt64) (code : List UInt8) (h : origin.toNat + code.length < 2 ^ 64) :
    Made (.load origin code)

/-- The segment under the program's name that was put there by hand, and not with the program. -/
def byHand (s? : Option Segment) : Edit → Option Segment
  | .addSegment s => if s.name = codeSegment then some s else s?
  | .flash _ => none
  | .write .. | .writeWord .. | .setStrict _ => s?

def codeByHand (edits : List Edit) : Option Segment := edits.foldl byHand none

/-- The code segment, if there is one, ends where the program ends. -/
def Aligned (m : Memory) : Prop := ∀ s, m.segment? codeSegment = some s → s.stop = m.codeEnd

/-- The names of the segments are distinct, and the code segment is the one put there by hand, or
else agrees with the end of the program and does not end before it starts. -/
structure Layout (m : Memory) (s? : Option Segment) : Prop where
  names : (m.segments.map Segment.name).Nodup
  byHand : ∀ s ∈ s?, m.segment? codeSegment = some s
  withProgram : s? = none → ∀ s, m.segment? codeSegment = some s →
    s.stop = m.codeEnd ∧ s.start ≤ s.stop
  missing : m.segment? codeSegment = none → m.codeEnd = 0

variable {m n : Memory} {s? : Option Segment} {edits : List Edit}

/-! One operation. -/

theorem segment?_addSegment (m : Memory) (s : Segment) (name : String) :
    (m.addSegment s).segment? name = if s.name = name then some s else m.segment? name := by
  unfold addSegment segment?
  rw [List.find?_append]
  by_cases h : s.name = name
  · have hnone : (m.segments.filter (·.name != s.name)).find? (·.name == name) = none := by
      apply List.find?_eq_none.2
      intro t ht
      simpa [h] using (List.mem_filter.1 ht).2
    rw [hnone, if_pos h, Option.none_or]
    simp [h]
  · have hsame : (m.segments.filter (·.name != s.name)).find? (·.name == name) =
        m.segments.find? (·.name == name) := by
      rw [List.find?_filter]
      congr 1
      funext t
      by_cases ht : t.name = name
      · simp [ht, Ne.symm h]
      · simp [ht]
    rw [hsame, if_neg h]
    simp [h]

theorem names_addSegment (h : (m.segments.map Segment.name).Nodup) (s : Segment) :
    ((m.addSegment s).segments.map Segment.name).Nodup := by
  unfold addSegment
  rw [List.map_append, List.nodup_append]
  refine ⟨?_, by simp, ?_⟩
  · exact h.sublist (List.filter_sublist.map _)
  · intro name hname other hother
    rw [List.map_singleton, List.mem_singleton] at hother
    rcases List.mem_map.1 hname with ⟨t, ht, rfl⟩
    rw [hother]
    simpa using (List.mem_filter.1 ht).2

theorem toNat_stop {a : UInt64} {count : Nat} (h : a.toNat + count < 2 ^ 64) :
    (a + UInt64.ofNat count).toNat = a.toNat + count := by
  rw [UInt64.toNat_add, UInt64.toNat_ofNat', Nat.mod_eq_of_lt (show count < 2 ^ 64 by omega),
    Nat.mod_eq_of_lt h]

theorem le_stop {a : UInt64} {count : Nat} (h : a.toNat + count < 2 ^ 64) :
    a ≤ a + UInt64.ofNat count := by
  rw [UInt64.le_iff_toNat_le, toNat_stop h]
  omega

/-- A program is flashed where the range to be forgotten is one. -/
theorem flash_ok_iff (m : Memory) (code : List UInt8) : (∃ n, m.flash code = .ok n) ↔
    ∀ s, m.segment? codeSegment = some s → s.start ≤ s.stop := by
  unfold flash
  cases hs : m.segment? codeSegment with
  | none => simp [Except.map]
  | some s =>
    by_cases h : s.start ≤ s.stop
    · simp only [if_pos h]
      constructor
      · intro _ t ht
        cases ht
        exact h
      · intro _
        exact ⟨_, rfl⟩
    · simp only [if_neg h]
      constructor
      · rintro ⟨n, hn⟩
        cases hn
      · intro hall
        exact absurd (hall s rfl) h

/-- Whatever is forgotten, the code segment is a new one, and the program ends with it. -/
theorem flash_map {code : List UInt8} (h : m.flash code = .ok n) :
    n.segments = (m.addSegment ⟨codeSegment, m.entry,
      m.entry + UInt64.ofNat code.length⟩).segments ∧
    n.codeEnd = m.entry + UInt64.ofNat code.length := by
  have hflashed : ∃ cleared : Memory, cleared.segments = m.segments ∧ n =
      ({ cleared.addSegment ⟨codeSegment, m.entry, m.entry + UInt64.ofNat code.length⟩ with
        codeEnd := m.entry + UInt64.ofNat code.length } : Memory).write m.entry code := by
    unfold flash at h
    cases hs : m.segment? codeSegment with
    | none =>
      simp only [hs, Except.map, Except.ok.injEq] at h
      exact ⟨m, rfl, h.symm⟩
    | some s =>
      simp only [hs] at h
      split_ifs at h
      · simp only [Except.map, Except.ok.injEq] at h
        exact ⟨m.erase s.start s.stop, rfl, h.symm⟩
      · cases h
  rcases hflashed with ⟨cleared, hsegments, rfl⟩
  have hgrows := Grows.write ({ cleared.addSegment ⟨codeSegment, m.entry,
    m.entry + UInt64.ofNat code.length⟩ with codeEnd := m.entry + UInt64.ofNat code.length })
    m.entry code
  refine ⟨?_, hgrows.codeEnd⟩
  rw [hgrows.segments]
  unfold addSegment
  rw [hsegments]

/-! The layout through the operations. -/

namespace Layout

theorem congr (h : m.Layout s?) (hsegments : n.segments = m.segments)
    (hend : n.codeEnd = m.codeEnd) : n.Layout s? := by
  have hcode (name : String) : n.segment? name = m.segment? name := by
    unfold segment?
    rw [hsegments]
  refine ⟨?_, ?_, ?_, ?_⟩
  · rw [hsegments]
    exact h.names
  · rw [hcode]
    exact h.byHand
  · rw [hcode, hend]
    exact h.withProgram
  · rw [hcode, hend]
    exact h.missing

theorem grows (h : m.Layout s?) (hn : m.Grows n) : n.Layout s? := h.congr hn.segments hn.codeEnd

/-- A code segment that agrees with the end of the program. -/
theorem of_program {origin stop : UInt64} (hnames : (n.segments.map Segment.name).Nodup)
    (hs : n.segment? codeSegment = some ⟨codeSegment, origin, stop⟩) (hend : n.codeEnd = stop)
    (hle : origin ≤ stop) : n.Layout none where
  names := hnames
  byHand := by
    intro s h
    cases h
  withProgram := by
    intro _ s h
    rw [hs] at h
    cases h
    exact ⟨hend.symm, hle⟩
  missing := by
    intro h
    rw [hs] at h
    cases h

theorem of_made (h : Made m) : m.Layout none := by
  cases h with
  | empty =>
    refine ⟨by simp [empty], ?_, ?_, fun _ => rfl⟩
    · intro s h
      cases h
    · intro _ s h
      cases h
  | load origin code hfits =>
    let stop := origin + UInt64.ofNat code.length
    have hbare : Layout ⟨∅, [⟨codeSegment, origin, stop⟩, ⟨".heap", 0x40_0001, 0x60_0000⟩,
        ⟨".stack", 0x60_0000, stackTop⟩], stop, false⟩ none :=
      of_program (by simp [codeSegment]) (by simp [segment?]) rfl (le_stop hfits)
    exact hbare.grows (.write _ origin code)

theorem addSegment (h : m.Layout s?) (s : Segment) :
    (m.addSegment s).Layout (Memory.byHand s? (.addSegment s)) := by
  have hcode := segment?_addSegment m s codeSegment
  by_cases hname : s.name = codeSegment
  · rw [if_pos hname] at hcode
    rw [Memory.byHand, if_pos hname]
    refine ⟨names_addSegment h.names s, ?_, by simp, ?_⟩
    · intro t ht
      cases ht
      exact hcode
    · intro hn
      rw [hcode] at hn
      cases hn
  · rw [if_neg hname] at hcode
    rw [Memory.byHand, if_neg hname]
    refine ⟨names_addSegment h.names s, ?_, ?_, ?_⟩
    · rw [hcode]
      exact h.byHand
    · rw [hcode]
      exact h.withProgram
    · rw [hcode]
      exact h.missing

theorem flash (h : m.Layout s?) {code : List UInt8} (hn : m.flash code = .ok n)
    (hfits : m.entry.toNat + code.length < 2 ^ 64) : n.Layout none := by
  rcases flash_map hn with ⟨hsegments, hend⟩
  have hcode : n.segment? codeSegment =
      some ⟨codeSegment, m.entry, m.entry + UInt64.ofNat code.length⟩ := by
    unfold segment?
    rw [hsegments]
    exact (segment?_addSegment m _ codeSegment).trans (if_pos rfl)
  apply of_program _ hcode hend (le_stop hfits)
  rw [hsegments]
  exact names_addSegment h.names _

theorem apply (h : m.Layout s?) {e : Edit} (hn : m.apply e = .ok n)
    (hfits : ∀ code, e = .flash code → m.entry.toNat + code.length < 2 ^ 64) :
    n.Layout (Memory.byHand s? e) := by
  cases e with
  | write a bytes =>
    cases hn
    exact h.grows (.write m a bytes)
  | writeWord a w v =>
    cases hn
    exact h.grows (.write m a _)
  | addSegment s =>
    cases hn
    exact h.addSegment s
  | setStrict strict =>
    cases hn
    exact h.congr rfl rfl
  | flash code => exact h.flash hn (hfits code rfl)

theorem aligned_iff (h : m.Layout s?) : m.Aligned ↔ ∀ s ∈ s?, s.stop = m.codeEnd := by
  cases s? with
  | none =>
    constructor
    · intro _ s hs
      cases hs
    · intro _ s hs
      exact (h.withProgram rfl s hs).1
  | some s =>
    have hs := h.byHand s rfl
    simp [Aligned, hs]

/-- Where the two ends agree, the program is where its segment is. -/
theorem inCode_iff (h : m.Layout s?) (ha : m.Aligned) (a : UInt64) : m.inCode a = true ↔
    ∃ s, m.segment? codeSegment = some s ∧ s.contains a = true := by
  rw [Memory.inCode_iff, entry]
  cases hs : m.segment? codeSegment with
  | none =>
    rw [h.missing hs]
    simp
  | some s =>
    rw [← ha s hs]
    simp [Segment.contains]

theorem apply_ok_iff (h : m.Layout s?) (e : Edit) : (∃ n, m.apply e = .ok n) ↔
    ∀ code, e = .flash code → ∀ s ∈ s?, s.start ≤ s.stop := by
  cases e with
  | flash code =>
    have hok := flash_ok_iff m code
    simp only [Memory.apply, hok, Edit.flash.injEq, forall_eq']
    constructor
    · intro hall s hs
      exact hall s (h.byHand s hs)
    · intro hall s hs
      cases s? with
      | none => exact (h.withProgram rfl s hs).2
      | some t =>
        rw [h.byHand t rfl] at hs
        cases hs
        exact hall _ rfl
  | _ => simp [Memory.apply]

end Layout

/-! Sequences of operations. -/

theorem applyAll_snoc (m : Memory) (edits : List Edit) (e : Edit) :
    applyAll m (edits ++ [e]) = applyAll m edits >>= fun n => n.apply e := by
  unfold applyAll
  rw [List.foldlM_append]
  simp

theorem codeByHand_snoc (edits : List Edit) (e : Edit) :
    codeByHand (edits ++ [e]) = byHand (codeByHand edits) e := by
  unfold codeByHand
  rw [List.foldl_append]
  rfl

def Fits (start : Memory) (edits : List Edit) : Prop :=
  ∀ done code, done ++ [.flash code] <+: edits → ∀ m, applyAll start done = .ok m →
    m.entry.toNat + code.length < 2 ^ 64

theorem layout_applyAll {start : Memory} (hstart : Made start) {done : List Edit}
    (hfits : Fits start edits) (hdone : done <+: edits) (hm : applyAll start done = .ok m) :
    m.Layout (codeByHand done) := by
  induction done using List.reverseRecOn generalizing m with
  | nil =>
    cases hm
    exact .of_made hstart
  | append_singleton done e ih =>
    rw [applyAll_snoc] at hm
    rcases ok_of_bind hm with ⟨k, hk, hn⟩
    rw [codeByHand_snoc]
    apply (ih ((List.prefix_append _ _).trans hdone) hk).apply hn
    intro code he
    subst he
    exact hfits done code hdone k hk

/-- What stands in the way of a sequence of operations: a program flashed over a segment put there by
hand that ends before it starts. -/
theorem applyAll_ok_iff {start : Memory} (hstart : Made start) (hfits : Fits start edits) :
    (∃ m, applyAll start edits = .ok m) ↔ ∀ done code, done ++ [.flash code] <+: edits →
      ∀ s ∈ codeByHand done, s.start ≤ s.stop := by
  have hprefix {done : List Edit} (hdone : done <+: edits) : (∃ m, applyAll start done = .ok m) ↔
      ∀ before code, before ++ [.flash code] <+: done →
        ∀ s ∈ codeByHand before, s.start ≤ s.stop := by
    induction done using List.reverseRecOn with
    | nil =>
      constructor
      · intro _ before code hbefore
        simp at hbefore
      · intro _
        exact ⟨start, rfl⟩
    | append_singleton done e ih =>
      have hearlier := (List.prefix_append done [e]).trans hdone
      rw [applyAll_snoc, bind_ok_iff]
      constructor
      · rintro ⟨k, hk, hn⟩ before code hbefore
        rcases List.prefix_concat_iff.1 hbefore with heq | hbefore
        · rcases List.append_inj' heq rfl with ⟨rfl, he⟩
          cases he
          exact ((layout_applyAll hstart hfits hearlier hk).apply_ok_iff _).1 hn code rfl
        · exact (ih hearlier).1 ⟨k, hk⟩ before code hbefore
      · intro hall
        rcases (ih hearlier).2 fun before code hbefore =>
          hall before code (hbefore.trans (List.prefix_append _ _)) with ⟨k, hk⟩
        refine ⟨k, hk, ((layout_applyAll hstart hfits hearlier hk).apply_ok_iff e).2 ?_⟩
        intro code he
        subst he
        exact hall done code (List.prefix_refl _)
  exact hprefix (List.prefix_refl edits)

/-- What a sequence of operations makes of a memory, and when it can be carried out. -/
theorem applyAll_layout {start : Memory} (hstart : Made start) (edits : List Edit)
    (hfits : Fits start edits) :
    (∀ m, applyAll start edits = .ok m →
      (m.segments.map Segment.name).Nodup ∧
      (m.Aligned ↔ ∀ s ∈ codeByHand edits, s.stop = m.codeEnd) ∧
      (m.Aligned → ∀ a, m.inCode a = true ↔
        ∃ s, m.segment? codeSegment = some s ∧ s.contains a = true)) ∧
    ((∃ m, applyAll start edits = .ok m) ↔ ∀ done code, done ++ [.flash code] <+: edits →
      ∀ s ∈ codeByHand done, s.start ≤ s.stop) := by
  refine ⟨?_, applyAll_ok_iff hstart hfits⟩
  intro m hm
  have h := layout_applyAll hstart hfits (List.prefix_refl edits) hm
  exact ⟨h.names, h.aligned_iff, h.inCode_iff⟩

/-- A segment under the program's name that goes on behind the program. -/
def longCode : List Edit := [.addSegment ⟨codeSegment, 0x1000, 0x1002⟩]

/-- A program flashed over a segment that ends before it starts. -/
def reversedCode : List Edit := [.addSegment ⟨codeSegment, 0x1001, 0x1000⟩, .flash [0x90]]

theorem fits_longCode (start : Memory) : Fits start longCode := by
  intro done code hdone
  have hmem : Edit.flash code ∈ longCode := hdone.subset (by simp)
  simp [longCode] at hmem

theorem eq_of_prefix_reversedCode {done : List Edit} {code : List UInt8}
    (h : done ++ [.flash code] <+: reversedCode) :
    done = [.addSegment ⟨codeSegment, 0x1001, 0x1000⟩] ∧ code = [0x90] := by
  rcases h with ⟨rest, h⟩
  match done with
  | [] => simp [reversedCode] at h
  | [e] =>
    simp only [reversedCode, List.cons_append, List.nil_append, List.cons.injEq,
      Edit.flash.injEq] at h
    rcases h with ⟨rfl, rfl, -⟩
    exact ⟨rfl, rfl⟩
  | _ :: _ :: _ => simp [reversedCode] at h

theorem longCode_not_aligned :
    Made (load 0x1000 [0x90]) ∧
    Fits (load 0x1000 [0x90]) longCode ∧
    (∃ m, applyAll (load 0x1000 [0x90]) longCode = .ok m ∧ m.codeEnd = 0x1001 ∧ ¬ m.Aligned) ∧
    Fits (load 0x1000 [0x90]) reversedCode ∧
    ¬ ∃ m, applyAll (load 0x1000 [0x90]) reversedCode = .ok m := by
  have hmade : Made (load 0x1000 [0x90]) := .load 0x1000 [0x90] (by decide)
  have hfits : Fits (load 0x1000 [0x90]) reversedCode := by
    intro done code hdone m hm
    rcases eq_of_prefix_reversedCode hdone with ⟨rfl, rfl⟩
    cases hm
    decide
  refine ⟨hmade, fits_longCode _, ?_, hfits, ?_⟩
  · refine ⟨_, rfl, rfl, ?_⟩
    intro h
    have hiff := (applyAll_layout hmade longCode (fits_longCode _)).1 _ rfl
    have hend := hiff.2.1.1 h _ rfl
    exact absurd hend (by decide)
  · intro h
    have hall := (applyAll_layout hmade reversedCode hfits).2.1 h
    have hle := hall [.addSegment ⟨codeSegment, 0x1001, 0x1000⟩] [0x90] (List.prefix_refl _)
      ⟨codeSegment, 0x1001, 0x1000⟩ rfl
    exact absurd hle (by decide)

end LongMode.Memory

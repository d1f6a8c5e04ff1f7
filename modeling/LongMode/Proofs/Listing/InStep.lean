import LongMode.Proofs.Listing.Flash
/-!
Listings under edits. Setting and removing breakpoints keeps a listing in step with the machine, and
so does writing bytes exactly where the write is harmless. A listing is therefore in step after each
of a sequence of edits exactly when all writes of the sequence are harmless.
-/

namespace LongMode.Listing

variable {m : Machine} {listing : Listing} {a b : UInt64} {bytes : List UInt8} {line : Line}

/-! Writes. -/

theorem edited_write (hs : Straight m) (hs' : Straight (m.write a bytes))
    (hfit : a.toNat + bytes.length ≤ 2 ^ 64) :
    Edited m (m.write a bytes) a (editEnd a bytes.length) where
  straight := hs
  straight' := hs'
  entry := (Memory.entry_write m.memory a bytes).1
  le := by
    have ha := a.toNat_lt
    rw [UInt64.le_iff_toNat_le, editEnd, UInt64.toNat_ofNat']
    have : UInt64.size = 2 ^ 64 := rfl
    omega
  front p line hd hlt := decode?_write_of_stop_lt hfit hs hd hlt
  back p hp := by
    by_cases hc : m.memory.inCode p = true
    · refine decode?_write_of_le hfit hs hs' ?_
      -- an address in the program is not the last one there is
      have hlt := UInt64.lt_iff_toNat_lt.1 (lt_codeEnd_of_inCode hc)
      have hmax := m.memory.codeEnd.toNat_lt
      rw [UInt64.le_iff_toNat_le, editEnd, UInt64.toNat_ofNat'] at hp
      have : UInt64.size = 2 ^ 64 := rfl
      omega
    · have hc : m.memory.inCode p = false := by simpa using hc
      have hc' : (m.write a bytes).memory.inCode p = false :=
        (Memory.inCode_write m.memory a p bytes).trans hc
      rw [decode?_outside hc, decode?_outside hc']

theorem edit_redone (listing : Listing) (a : UInt64) (bytes : List UInt8)
    (hs : Straight (listing.machine.write a bytes)) :
    ∃ stop, Redone (listing.machine.write a bytes) listing.lines (listing.edit a bytes).1.lines
      (listing.lines.startAt a) (editEnd a bytes.length) stop := by
  refine ⟨_, redone_of_continues hs (redecode_continues hs _ _ ?_)⟩
  dsimp only
  omega

theorem flash_of_ne_nil (hb : bytes ≠ []) :
    listing.flash a bytes = (listing.edit a bytes).1 := by
  unfold flash
  rw [if_neg (by simpa using hb)]

theorem edit_lines_iff (hl : listing.lines = (ofMachine listing.machine).lines)
    (hs : Straight listing.machine) (hs' : Straight (listing.machine.write a bytes))
    (hfit : a.toNat + bytes.length ≤ 2 ^ 64) :
    (listing.edit a bytes).1.lines = (ofMachine (listing.edit a bytes).1.machine).lines ↔
      Harmless listing.machine (listing.machine.write a bytes) listing.lines a
        (editEnd a bytes.length) := by
  obtain ⟨stop, hnew⟩ := edit_redone listing a bytes hs'
  refine redone_inStep_iff (edited_write hs hs' hfit) (fun b line => ?_) hnew
  rw [hl]
  exact ofMachine_getElem? hs

/-! Breakpoints. -/

theorem isBreakpoint_toggle (m : Machine) (a b : UInt64) :
    (m.toggleBreakpoint a).2.isBreakpoint b =
      if b = a then (m.toggleBreakpoint a).1 else m.isBreakpoint b := by
  unfold Machine.toggleBreakpoint
  split_ifs with h hb hb
  · simp [Machine.isBreakpoint, hb]
  · simp [Machine.isBreakpoint, Ne.symm hb]
  · simp [Machine.isBreakpoint, Machine.setBreakpoint, hb]
  · simp [Machine.isBreakpoint, Machine.setBreakpoint, Ne.symm hb]

def marked (isSet : Bool) (line : Line) : Line :=
  { line with info := if isSet then line.info.insert .breakpoint else line.info.remove .breakpoint }

theorem breakpoint_marks :
    LineInfo.none.insert .breakpoint = .breakpoint ∧
    LineInfo.breakpoint.remove .breakpoint = .none ∧
    (LineInfo.invalid.insert .none).insert .breakpoint = LineInfo.invalid.insert .breakpoint ∧
    (LineInfo.invalid.insert .breakpoint).remove .breakpoint = LineInfo.invalid.insert .none := by
  decide

theorem lineFor_toggle (m : Machine) (a : UInt64) (l : Located) :
    (m.toggleBreakpoint a).2.lineFor l =
      if l.start = a then marked (m.toggleBreakpoint a).1 (m.lineFor l) else m.lineFor l := by
  unfold Machine.lineFor
  rw [isBreakpoint_toggle]
  by_cases h : l.start = a
  · -- the mark that is toggled is the one that was there
    have hset : (m.toggleBreakpoint a).1 = !m.isBreakpoint l.start := by
      unfold Machine.toggleBreakpoint
      rw [h]
      split_ifs with hb <;> simp [hb]
    rw [if_pos h, if_pos h, hset]
    obtain ⟨hset, hremoved, hset', hremoved'⟩ := breakpoint_marks
    cases m.isBreakpoint l.start <;> cases l.instruction <;> simp [marked, *]
  · rw [if_neg h, if_neg h]

theorem toggle_memory (m : Machine) (a : UInt64) : (m.toggleBreakpoint a).2.memory = m.memory := by
  unfold Machine.toggleBreakpoint
  split_ifs <;> rfl

theorem Straight.of_memory_eq {n : Machine} (hs : Straight m) (h : n.memory = m.memory) :
    Straight n := by
  unfold Straight
  rw [h]
  exact hs

theorem straight_toggle (hs : Straight m) (a : UInt64) : Straight (m.toggleBreakpoint a).2 :=
  hs.of_memory_eq (toggle_memory m a)

theorem decode?_toggle (m : Machine) (a b : UInt64) : decode? (m.toggleBreakpoint a).2 b =
    if b = a then (decode? m b).map (marked (m.toggleBreakpoint a).1) else decode? m b := by
  rw [decode?_eq, decode?_eq, toggle_memory]
  by_cases hc : m.memory.inCode b = true
  · rw [if_pos hc, if_pos hc]
    cases hl : Located.at? m.memory.readByte b with
    | error e => simp
    | ok l =>
      have hstart := (Located.at?_spans hl).start
      simp only [lineFor_toggle, hstart]
      split_ifs <;> rfl
  · rw [if_neg hc, if_neg hc]
    simp

theorem Reaches.of_stops {m n : Machine} {p q : UInt64} (h : Reaches m p q)
    (hn : ∀ r line, decode? m r = some line →
      ∃ other, decode? n r = some other ∧ other.stop = line.stop) : Reaches n p q := by
  induction h with
  | refl p => exact .refl p
  | next hd _ ih =>
    obtain ⟨other, hd', hstop⟩ := hn _ _ hd
    exact .next hd' (by rw [hstop]; exact ih)

theorem reaches_toggle_iff (m : Machine) (a : UInt64) {p q : UInt64} :
    Reaches (m.toggleBreakpoint a).2 p q ↔ Reaches m p q := by
  constructor
  · refine fun h => h.of_stops fun r line hd => ?_
    rw [decode?_toggle] at hd
    split_ifs at hd
    · obtain ⟨other, hd', rfl⟩ := Option.map_eq_some_iff.1 hd
      exact ⟨other, hd', rfl⟩
    · exact ⟨line, hd, rfl⟩
  · refine fun h => h.of_stops fun r line hd => ?_
    rw [decode?_toggle, hd]
    split_ifs
    · exact ⟨_, rfl, rfl⟩
    · exact ⟨_, rfl, rfl⟩

theorem toggle_getElem? (listing : Listing) (a b : UInt64) :
    (listing.toggleBreakpoint a).2.lines[b]? =
      if b = a then listing.lines[b]?.map (marked (listing.machine.toggleBreakpoint a).1)
      else listing.lines[b]? := by
  change (listing.lines.modify a (marked (listing.machine.toggleBreakpoint a).1))[b]? = _
  rw [Std.ExtTreeMap.getElem?_modify]
  by_cases hb : b = a
  · subst hb
    rw [if_pos rfl, if_pos Std.ReflCmp.compare_self]
  · rw [if_neg hb, if_neg fun h => hb (Std.compare_eq_iff_eq.1 h).symm]

theorem toggle_lines (hl : listing.lines = (ofMachine listing.machine).lines)
    (hs : Straight listing.machine) (a : UInt64) : (listing.toggleBreakpoint a).2.lines =
      (ofMachine (listing.toggleBreakpoint a).2.machine).lines := by
  have hmachine : (listing.toggleBreakpoint a).2.machine =
      (listing.machine.toggleBreakpoint a).2 := rfl
  refine Lines.ext_some fun b line => ?_
  rw [toggle_getElem?, hmachine, ofMachine_getElem? (straight_toggle hs a), reaches_toggle_iff,
    decode?_toggle, toggle_memory, hl]
  by_cases hb : b = a
  · rw [if_pos hb, if_pos hb, Option.map_eq_some_iff, Option.map_eq_some_iff]
    simp only [ofMachine_getElem? hs, and_assoc, exists_and_left]
  · rw [if_neg hb, if_neg hb, ofMachine_getElem? hs]

/-! Sequences of edits. -/

inductive Edit where
  | flash (a : UInt64) (bytes : List UInt8)
  | toggle (a : UInt64)

def apply (listing : Listing) : Edit → Listing
  | .flash a bytes => listing.flash a bytes
  | .toggle a => (listing.toggleBreakpoint a).2

def applyAll (listing : Listing) (edits : List Edit) : Listing := edits.foldl apply listing

/-- The listing shows what a listing from scratch of its machine shows, wherever the mark of the
instruction pointer is. -/
def InStep (listing : Listing) : Prop :=
  ∀ ip, listing.lines.shown ip = (ofMachine listing.machine).lines.shown ip

/-- The lines stand at their own addresses, and in front of the end of the program. -/
def Keyed (listing : Listing) : Prop := ∀ (b : UInt64) (line : Line),
  listing.lines[b]? = some line → line.address = b ∧ b < listing.machine.memory.codeEnd

theorem keyed_ofMachine (hs : Straight m) : Keyed (ofMachine m) := by
  intro b line hb
  obtain ⟨-, hd⟩ := (ofMachine_getElem? hs).1 hb
  rw [ofMachine_machine]
  exact ⟨address_of_decode? hd, lt_codeEnd_of_inCode (inCode_of_decode? hd)⟩

theorem keyed_apply (hk : Keyed listing) (e : Edit) (hs : Straight (apply listing e).machine) :
    Keyed (apply listing e) := by
  cases e with
  | flash a bytes =>
    by_cases hnil : bytes = []
    · subst hnil
      exact hk
    have hflash : apply listing (.flash a bytes) = (listing.edit a bytes).1 := flash_of_ne_nil hnil
    rw [hflash] at hs ⊢
    obtain ⟨stop, hnew⟩ := edit_redone listing a bytes hs
    have hend : (listing.edit a bytes).1.machine.memory.codeEnd =
        listing.machine.memory.codeEnd := (Memory.entry_write listing.machine.memory a bytes).2.1
    intro b line hb
    rw [hend]
    rcases hnew.origin hb with hold | hd
    · exact hk b line hold
    · refine ⟨address_of_decode? hd, ?_⟩
      have hlt := lt_codeEnd_of_inCode (inCode_of_decode? hd)
      exact hend ▸ hlt
  | toggle a =>
    intro b line hb
    have hmemory : (apply listing (.toggle a)).machine.memory = listing.machine.memory :=
      toggle_memory listing.machine a
    have hb : (listing.toggleBreakpoint a).2.lines[b]? = some line := hb
    rw [hmemory]
    rw [toggle_getElem?] at hb
    split_ifs at hb
    · obtain ⟨other, hother, rfl⟩ := Option.map_eq_some_iff.1 hb
      exact hk b other hother
    · exact hk b line hb

theorem inStep_iff (hk : Keyed listing) (hs : Straight listing.machine) :
    InStep listing ↔ listing.lines = (ofMachine listing.machine).lines := by
  constructor
  · intro h
    have hmachine : (ofMachine listing.machine).machine.memory = listing.machine.memory := by
      rw [ofMachine_machine]
    refine Lines.eq_of_shown_eq ?_ ?_ (h listing.machine.memory.codeEnd)
    · intro b line hb
      obtain ⟨hkey, hlt⟩ := hk b line hb
      exact ⟨hkey, fun he => UInt64.lt_irrefl _ (he ▸ hlt)⟩
    · intro b line hb
      obtain ⟨hkey, hlt⟩ := keyed_ofMachine hs b line hb
      rw [hmachine] at hlt
      exact ⟨hkey, fun he => UInt64.lt_irrefl _ (he ▸ hlt)⟩
  · intro h ip
    rw [← h]

theorem inStep_ofMachine (m : Machine) : InStep (ofMachine m) := by
  intro ip
  rw [ofMachine_machine]
  rfl

theorem applyAll_snoc (listing : Listing) (edits : List Edit) (e : Edit) :
    applyAll listing (edits ++ [e]) = apply (applyAll listing edits) e := by
  unfold applyAll
  rw [List.foldl_append]
  rfl

/-- The lines keep their places through a sequence of edits. -/
theorem keyed_applyAll {edits done : List Edit}
    (hs : ∀ done, done <+: edits → Straight (applyAll (ofMachine m) done).machine)
    (hdone : done <+: edits) : Keyed (applyAll (ofMachine m) done) := by
  induction done using List.reverseRecOn with
  | nil =>
    have hs := hs [] hdone
    rw [applyAll, List.foldl_nil, ofMachine_machine] at hs
    exact keyed_ofMachine hs
  | append_singleton done e ih =>
    have hs := hs _ hdone
    rw [applyAll_snoc] at hs ⊢
    exact keyed_apply (ih ((List.prefix_append _ _).trans hdone)) e hs

/-- A write that takes place has the effect of an edit that is harmless or not. -/
theorem flash_inStep_iff (hk : Keyed listing) (hi : InStep listing)
    (hs : Straight listing.machine) (hs' : Straight (listing.machine.write a bytes))
    (hfit : a.toNat + bytes.length ≤ 2 ^ 64) (hnil : bytes ≠ []) :
    InStep (apply listing (.flash a bytes)) ↔
      Harmless listing.machine (listing.machine.write a bytes) listing.lines a
        (editEnd a bytes.length) := by
  have hflash : apply listing (.flash a bytes) = (listing.edit a bytes).1 := flash_of_ne_nil hnil
  have hs'' : Straight (apply listing (.flash a bytes)).machine := by
    rw [hflash]
    exact hs'
  rw [inStep_iff (keyed_apply hk _ hs'') hs'', hflash]
  exact edit_lines_iff ((inStep_iff hk hs).1 hi) hs hs' hfit

/-- A listing is in step after each of a sequence of edits exactly when no write of the sequence is
harmful where it takes place. -/
theorem applyAll_inStep_iff (m : Machine) (edits : List Edit)
    (hs : ∀ done, done <+: edits → Straight (applyAll (ofMachine m) done).machine)
    (hfit : ∀ a bytes, Edit.flash a bytes ∈ edits → a.toNat + bytes.length ≤ 2 ^ 64) :
    (∀ done, done <+: edits → InStep (applyAll (ofMachine m) done)) ↔
    ∀ done a bytes, done ++ [.flash a bytes] <+: edits → bytes ≠ [] →
      let listing := applyAll (ofMachine m) done
      Harmless listing.machine (listing.machine.write a bytes) listing.lines a
        (editEnd a bytes.length) := by
  have hkeyed (done : List Edit) (hdone : done <+: edits) := keyed_applyAll hs hdone
  have hflash {done : List Edit} {a : UInt64} {bytes : List UInt8}
      (hdone : done ++ [.flash a bytes] <+: edits) (hnil : bytes ≠ [])
      (hi : InStep (applyAll (ofMachine m) done)) := by
    have hbefore := (List.prefix_append done [.flash a bytes]).trans hdone
    have hs' := hs _ hdone
    rw [applyAll_snoc, apply, flash_of_ne_nil hnil] at hs'
    have hmem : Edit.flash a bytes ∈ edits := hdone.subset (by simp)
    exact flash_inStep_iff (hkeyed done hbefore) hi (hs done hbefore) hs' (hfit a bytes hmem) hnil
  constructor
  · intro h done a bytes hdone hnil
    have hi := h _ hdone
    rw [applyAll_snoc] at hi
    exact (hflash hdone hnil (h done ((List.prefix_append _ _).trans hdone))).1 hi
  · intro h done
    induction done using List.reverseRecOn with
    | nil => exact fun _ => inStep_ofMachine m
    | append_singleton done e ih =>
      intro hdone
      have hbefore := (List.prefix_append done [e]).trans hdone
      have hi := ih hbefore
      have hkeyed' := hkeyed _ hdone
      have hs' := hs _ hdone
      rw [applyAll_snoc] at hkeyed' hs' ⊢
      cases e with
      | flash a bytes =>
        by_cases hnil : bytes = []
        · subst hnil
          exact hi
        · exact (hflash hdone hnil hi).2 (h done a bytes hdone hnil)
      | toggle a =>
        refine (inStep_iff hkeyed' hs').2 (toggle_lines ?_ (hs done hbefore) a)
        exact (inStep_iff (hkeyed done hbefore) (hs done hbefore)).1 hi

/-- `C6 FF 90`: no instruction, as the byte behind `C6` tells. -/
def peekedGroup : Machine := .ofCode [0xC6, 0xFF, 0x90]

/-- That byte becomes one that makes an instruction of the line in front of it. -/
def groupEdit : List Edit := [.flash 0x1001 [0x00]]

theorem straight_peekedGroup : Straight peekedGroup :=
  straight_of_stop (q := 0x1003) (by decide) (by decide) fun byte h => by
    have h0 : peekedGroup.memory.readByte 0x1003 = .ok 0 := by rfl
    rw [h0] at h
    cases h
    rfl

theorem straight_groupEdit : Straight (peekedGroup.write 0x1001 [0x00]) :=
  straight_of_stop (q := 0x1003) (by decide) (by decide) fun byte h => by
    have h0 : (peekedGroup.write 0x1001 [0x00]).memory.readByte 0x1003 = .ok 0 := by rfl
    rw [h0] at h
    cases h
    rfl

theorem groupEdit_not_inStep :
    (∀ done, done <+: groupEdit → Straight (applyAll (ofMachine peekedGroup) done).machine) ∧
    (∀ a bytes, Edit.flash a bytes ∈ groupEdit → a.toNat + bytes.length ≤ 2 ^ 64) ∧
    ¬ ∀ done, done <+: groupEdit → InStep (applyAll (ofMachine peekedGroup) done) := by
  have hmachine := ofMachine_machine peekedGroup
  have hs : ∀ done, done <+: groupEdit →
      Straight (applyAll (ofMachine peekedGroup) done).machine := by
    intro done hdone
    obtain rfl | ⟨rest, rfl, hrest⟩ := List.prefix_cons_iff.1 hdone
    · refine straight_peekedGroup.of_memory_eq ?_
      exact congrArg (fun n => n.memory) hmachine
    · rw [List.prefix_nil.1 hrest]
      refine straight_groupEdit.of_memory_eq ?_
      exact congrArg (fun n => n.memory.write 0x1001 [0x00]) hmachine
  have hfit : ∀ a bytes, Edit.flash a bytes ∈ groupEdit → a.toNat + bytes.length ≤ 2 ^ 64 := by
    intro a bytes h
    cases List.mem_singleton.1 h
    decide
  refine ⟨hs, hfit, fun h => ?_⟩
  have hharmless := (applyAll_inStep_iff peekedGroup groupEdit hs hfit).1 h [] 0x1001 [0x00]
    (List.prefix_refl _) (by decide)
  -- before the edit a byte that decodes to nothing stands at the entry, and ends where it begins
  obtain ⟨line, hd, hstop⟩ : ∃ line, decode? peekedGroup 0x1000 = some line ∧ line.stop = 0x1001 :=
    Option.map_eq_some_iff.1 (by decide +kernel)
  have hline : (ofMachine peekedGroup).lines[(0x1000 : UInt64)]? = some line :=
    (ofMachine_getElem? straight_peekedGroup).2 ⟨.refl _, hd⟩
  have hstays := hharmless.before 0x1000 line hline hstop
  change decode? ((ofMachine peekedGroup).machine.write 0x1001 [0x00]) 0x1000 = some line at hstays
  rw [ofMachine_machine] at hstays
  have hagain : (decode? (peekedGroup.write 0x1001 [0x00]) 0x1000).map Line.stop = some 0x1003 := by
    decide +kernel
  have hsame : decode? ({ peekedGroup with ip := stopAt peekedGroup }.write 0x1001 [0x00]) 0x1000 =
      decode? (peekedGroup.write 0x1001 [0x00]) 0x1000 := rfl
  rw [← hsame, hstays, Option.map_some, hstop] at hagain
  exact absurd hagain (by decide)

end LongMode.Listing

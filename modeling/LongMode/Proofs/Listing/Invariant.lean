import LongMode.Proofs.Listing.InStep
import LongMode.Proofs.Listing.Tiling
/-!
What every listing keeps, however it was edited. Its lines tile the program, each is the line of an
encoding at its own address, and the marks on it say what the machine has there. An edit joins three
tilings: the old lines up to the place where decoding begins again, the lines that are decoded, and
the old lines from where decoding meets one of them.
-/

namespace LongMode

theorem Machine.lineFor_text_bad_iff (m : Machine) (l : Located) :
    (m.lineFor l).info.contains .invalid = true ↔ (m.lineFor l).text = "BAD INSTRUCTION" := by
  rw [lineFor_contains_invalid, Option.isNone_iff_eq_none]
  cases hi : l.instruction with
  | none => simp [lineFor, hi, Line.text]
  | some i =>
    have htokens : (m.lineFor l).tokens = i.tokens := by simp only [lineFor, hi]
    simp [Line.text_ne_bad htokens]

namespace Listing

/-- From `a` up to `b` the map holds lines that stand one behind the other, and nothing else. -/
inductive Tiled (lines : Lines) : UInt64 → UInt64 → Prop where
  | nil (a : UInt64) : Tiled lines a a
  | cons {a b : UInt64} {line : Line} (hline : lines[a]? = some line) (hlt : a < line.stop)
    (hgap : ∀ c, a < c → c < line.stop → lines[c]? = none) (hrest : Tiled lines line.stop b) :
    Tiled lines a b

namespace Tiled

variable {lines new : Lines} {a b c p : UInt64} {line : Line}

theorem le (h : Tiled lines a b) : a ≤ b := by
  induction h with
  | nil a => exact UInt64.le_refl a
  | cons _ hlt _ _ ih => exact UInt64.le_of_lt (UInt64.lt_of_lt_of_le hlt ih)

theorem trans (h : Tiled lines a b) (h' : Tiled lines b c) : Tiled lines a c := by
  induction h with
  | nil a => exact h'
  | cons hline hlt hgap _ ih => exact .cons hline hlt hgap (ih h')

/-- Lines with the same places tile the same. -/
theorem of_stops (h : Tiled lines a b) (hstop : ∀ c, a ≤ c → c < b →
    new[c]?.map Line.stop = lines[c]?.map Line.stop) : Tiled new a b := by
  induction h with
  | nil a => exact .nil a
  | @cons a b line hline hlt hgap hrest ih =>
    have hle := hrest.le
    have hhere := hstop a (UInt64.le_refl a) (UInt64.lt_of_lt_of_le hlt hle)
    rw [hline, Option.map_some, Option.map_eq_some_iff] at hhere
    obtain ⟨other, hother, hsame⟩ := hhere
    rw [← hsame] at hlt hgap hle ih
    refine .cons hother hlt (fun c hac hc => ?_) (ih fun c hc => ?_)
    · have hnone := hstop c (UInt64.le_of_lt hac) (UInt64.lt_of_lt_of_le hc hle)
      rw [hgap c hac hc, Option.map_none, Option.map_eq_none_iff] at hnone
      exact hnone
    · exact hstop c (UInt64.le_of_lt (UInt64.lt_of_lt_of_le hlt hc))

theorem congr (h : Tiled lines a b) (hsame : ∀ c, a ≤ c → c < b → new[c]? = lines[c]?) :
    Tiled new a b := h.of_stops fun c hac hcb => by rw [hsame c hac hcb]

/-- A tiling comes apart at the start of every line. -/
theorem split (h : Tiled lines a b) (hline : lines[p]? = some line) (hap : a ≤ p) (hpb : p < b) :
    Tiled lines a p ∧ Tiled lines p b := by
  induction h with
  | nil a => exact absurd (UInt64.lt_of_le_of_lt hap hpb) (UInt64.lt_irrefl a)
  | @cons a b first hfirst hlt hgap hrest ih =>
    rcases UInt64.le_iff_lt_or_eq.1 hap with hap | rfl
    · have hstop : first.stop ≤ p := by
        by_contra hcovered
        rw [hgap p hap (UInt64.not_le.1 hcovered)] at hline
        cases hline
      obtain ⟨hfront, hback⟩ := ih hstop hpb
      exact ⟨.cons hfirst hlt hgap hfront, hback⟩
    · exact ⟨.nil a, .cons hfirst hlt hgap hrest⟩

/-- Every address lies in a line, behind which no other begins up to there. -/
theorem covered (h : Tiled lines a b) (hap : a ≤ p) (hpb : p < b) :
    ∃ c line, lines[c]? = some line ∧ c ≤ p ∧ p < line.stop ∧
      ∀ d, c < d → d ≤ p → lines[d]? = none := by
  induction h with
  | nil a => exact absurd (UInt64.lt_of_le_of_lt hap hpb) (UInt64.lt_irrefl a)
  | @cons a b line hline _ hgap _ ih =>
    by_cases hp : p < line.stop
    · exact ⟨a, line, hline, hap, hp, fun d had hdp => hgap d had (UInt64.lt_of_le_of_lt hdp hp)⟩
    · exact ih (UInt64.not_lt.1 hp) hpb

/-- The lines of a chain tile what it passes. -/
theorem of_reaches {m : Machine} (hs : Straight m) (h : Reaches m a b)
    (hl : ∀ c line, a ≤ c → c < b →
      (lines[c]? = some line ↔ Reaches m a c ∧ decode? m c = some line)) : Tiled lines a b := by
  induction h with
  | refl a => exact .nil a
  | @next a b line hd hrest ih =>
    have hlt := lt_stop_of_decode? hs hd
    have hle := hrest.le hs
    refine .cons ((hl a line (UInt64.le_refl a) (UInt64.lt_of_lt_of_le hlt hle)).2 ⟨.refl a, hd⟩)
      hlt (fun c hac hc => ?_) (ih fun c other hc hcb => ?_)
    · -- a line in the gap would be on the chain
      rw [Option.eq_none_iff_forall_ne_some]
      intro other hother
      have hon := (hl c other (UInt64.le_of_lt hac) (UInt64.lt_of_lt_of_le hc hle)).1 hother
      have hstop := Reaches.stop_le hs (.refl a) hd hon.1 hac
      exact UInt64.lt_irrefl _ (UInt64.lt_of_le_of_lt hstop hc)
    · have hac := UInt64.le_of_lt (UInt64.lt_of_lt_of_le hlt hc)
      rw [hl c other hac hcb]
      refine and_congr_left fun _ => ⟨fun hac => ?_, .next hd⟩
      exact ((Reaches.refl a).snoc hd).total hs hac hc

/-- The least one of sorted entries stands first. -/
theorem eq_cons_of_least {entries : List (UInt64 × Line)} {x : UInt64 × Line}
    (hsorted : entries.Pairwise fun x y => x.1 < y.1) (hmem : x ∈ entries)
    (hleast : ∀ y ∈ entries, x.1 ≤ y.1) : ∃ rest, entries = x :: rest := by
  rcases entries with _ | ⟨y, rest⟩
  · exact absurd hmem List.not_mem_nil
  · rcases List.mem_cons.1 hmem with rfl | hrest
    · exact ⟨rest, rfl⟩
    · have hlt := (List.pairwise_cons.1 hsorted).1 x hrest
      have hle := hleast y List.mem_cons_self
      exact absurd (UInt64.lt_of_lt_of_le hlt hle) (UInt64.lt_irrefl y.1)

/-- The entries of a tiling in address order, as a list of lines. -/
theorem tiles_entries (h : Tiled lines a b)
    (hkey : ∀ (c : UInt64) (line : Line), lines[c]? = some line → line.address = c)
    {entries : List (UInt64 × Line)} (hsorted : entries.Pairwise fun x y => x.1 < y.1)
    (hentries : ∀ x, x ∈ entries ↔ lines[x.1]? = some x.2 ∧ a ≤ x.1)
    (hbound : ∀ x ∈ entries, x.1 < b) : Tiles a (entries.map Prod.snd) b := by
  induction h generalizing entries with
  | nil a =>
    have hnone : entries = [] := by
      apply List.eq_nil_iff_forall_not_mem.2
      intro x hx
      have hle := ((hentries x).1 hx).2
      exact UInt64.lt_irrefl a (UInt64.lt_of_le_of_lt hle (hbound x hx))
    subst hnone
    rfl
  | @cons a b line hline hlt hgap _ ih =>
    have hmem : (a, line) ∈ entries := (hentries (a, line)).2 ⟨hline, UInt64.le_refl a⟩
    obtain ⟨rest, rfl⟩ := eq_cons_of_least hsorted hmem fun y hy => ((hentries y).1 hy).2
    obtain ⟨hfirst, hsorted⟩ := List.pairwise_cons.1 hsorted
    have hrest (y : UInt64 × Line) : y ∈ rest ↔ lines[y.1]? = some y.2 ∧ line.stop ≤ y.1 := by
      constructor
      · intro hy
        obtain ⟨hsome, -⟩ := (hentries y).1 (List.mem_cons_of_mem _ hy)
        refine ⟨hsome, ?_⟩
        by_contra hcovered
        rw [hgap y.1 (hfirst y hy) (UInt64.not_le.1 hcovered)] at hsome
        cases hsome
      · rintro ⟨hsome, hle⟩
        have hay := UInt64.lt_of_lt_of_le hlt hle
        rcases List.mem_cons.1 ((hentries y).2 ⟨hsome, UInt64.le_of_lt hay⟩) with rfl | hy
        · exact absurd hay (UInt64.lt_irrefl a)
        · exact hy
    refine ⟨hkey a line hline, hlt, ih hsorted hrest ?_⟩
    intro y hy
    exact hbound y (List.mem_cons_of_mem _ hy)

theorem tiles (h : Tiled lines a b)
    (hkey : ∀ (c : UInt64) (line : Line), lines[c]? = some line → line.address = c)
    (hin : ∀ (c : UInt64) (line : Line), lines[c]? = some line → a ≤ c ∧ c < b) :
    Tiles a (lines.toList.map Prod.snd) b := by
  have hentry (x : UInt64 × Line) : x ∈ lines.toList ↔ lines[x.1]? = some x.2 :=
    Std.ExtTreeMap.mem_toList_iff_getElem?_eq_some
  refine h.tiles_entries hkey ?_ (fun x => ?_) fun x hx => ?_
  · refine (Std.ExtTreeMap.ordered_keys_toList (t := lines)).imp fun hlt => ?_
    exact Std.compare_eq_lt.1 hlt
  · rw [hentry]
    exact ⟨fun hx => ⟨hx, (hin _ _ hx).1⟩, And.left⟩
  · exact (hin _ _ ((hentry x).1 hx)).2

end Tiled

structure Kept (listing : Listing) : Prop where
  lenient : listing.machine.memory.strict = false
  /-- Each line is that of an encoding in the program. -/
  own : ∀ (b : UInt64) (line : Line), listing.lines[b]? = some line →
    listing.machine.memory.inCode b = true ∧
      ∃ l : Located, l.start = b ∧ line = listing.machine.lineFor l
  tiled : ∃ stop, listing.machine.memory.codeEnd ≤ stop ∧
    Tiled listing.lines listing.machine.memory.entry stop

section Kept

variable {m n : Machine} {listing : Listing} {lines new : Lines} {a b start edited stop : UInt64}
  {line : Line} {bytes : List UInt8}

theorem start_of_decode? (hd : decode? m b = some line) :
    m.memory.inCode b = true ∧ ∃ l : Located, l.start = b ∧ line = m.lineFor l := by
  obtain ⟨hc, l, hl, rfl⟩ := located_of_decode? hd
  exact ⟨hc, l, (Located.at?_spans hl).start, rfl⟩

/-- Without strict memory there is a line at every address of the program. -/
theorem codeEnd_le_of_none (hlenient : m.memory.strict = false) (hle : m.memory.entry ≤ b)
    (hd : decode? m b = none) : m.memory.codeEnd ≤ b := by
  refine codeEnd_le_of_not_inCode hle ?_
  by_contra hc
  rw [Bool.not_eq_false] at hc
  rw [decode?_eq, if_pos hc] at hd
  cases hl : Located.at? m.memory.readByte b with
  | error e =>
    obtain ⟨c, f, -, herror⟩ := Located.at?_error hl
    rw [(Memory.readByte_error herror).1] at hlenient
    cases hlenient
  | ok l =>
    rw [hl] at hd
    cases hd

theorem kept_ofMachine (hlenient : m.memory.strict = false) (hs : Straight m) :
    Kept (ofMachine m) := by
  have hreaches := reaches_stopAt hs
  refine ⟨?_, fun b line hb => ?_, stopAt m, ?_, ?_⟩
  · rw [ofMachine_machine]
    exact hlenient
  · rw [ofMachine_machine]
    exact start_of_decode? ((ofMachine_getElem? hs).1 hb).2
  · rw [ofMachine_machine]
    exact codeEnd_le_of_none hlenient (hreaches.le hs) (decode?_stopAt hs)
  · rw [ofMachine_machine]
    exact Tiled.of_reaches hs hreaches fun c line _ _ => ofMachine_getElem? hs

theorem kept_toggle (h : Kept listing) (a : UInt64) : Kept (listing.toggleBreakpoint a).2 := by
  have hmemory : (listing.toggleBreakpoint a).2.machine.memory = listing.machine.memory :=
    toggle_memory listing.machine a
  obtain ⟨stop, hend, htiled⟩ := h.tiled
  refine ⟨?_, fun b line hb => ?_, stop, ?_, ?_⟩
  · rw [hmemory]
    exact h.lenient
  · rw [hmemory]
    change _ ∧ ∃ l, l.start = b ∧ line = (listing.machine.toggleBreakpoint a).2.lineFor l
    rw [toggle_getElem?] at hb
    by_cases hab : b = a
    · rw [if_pos hab, Option.map_eq_some_iff] at hb
      obtain ⟨other, hother, rfl⟩ := hb
      obtain ⟨hc, l, hl, rfl⟩ := h.own b other hother
      exact ⟨hc, l, hl, by rw [lineFor_toggle, if_pos (hl.trans hab)]⟩
    · rw [if_neg hab] at hb
      obtain ⟨hc, l, hl, rfl⟩ := h.own b line hb
      exact ⟨hc, l, hl, by rw [lineFor_toggle, if_neg fun hla => hab (hl.symm.trans hla)]⟩
  · rw [hmemory]
    exact hend
  · rw [hmemory]
    refine htiled.of_stops fun c _ _ => ?_
    rw [toggle_getElem?]
    split_ifs
    · rw [Option.map_map]
      rfl
    · rfl

/-- Old lines up to the place where decoding begins again, the lines decoded from there, and the old
lines where decoding has met one of them. -/
theorem Redone.tiled (hs : Straight n) (hlenient : n.memory.strict = false)
    (h : Redone n lines new start edited stop) (hle : n.memory.entry ≤ start)
    (hin : ∀ (c : UInt64) (line : Line), lines[c]? = some line → n.memory.inCode c = true)
    (hfront : Tiled lines n.memory.entry start) {last : UInt64} (hlast : n.memory.codeEnd ≤ last)
    (htiled : Tiled lines n.memory.entry last) :
    ∃ stop', n.memory.codeEnd ≤ stop' ∧ Tiled new n.memory.entry stop' := by
  have hentry : n.memory.entry ≤ stop := UInt64.le_trans hle (h.reaches.le hs)
  have hnew : Tiled new n.memory.entry stop :=
    (hfront.congr fun c _ hc => h.front c hc).trans (Tiled.of_reaches hs h.reaches h.between)
  rcases h.ends with hnone | ⟨hsync, line, hline⟩
  · exact ⟨stop, codeEnd_le_of_none hlenient hentry hnone, hnew⟩
  · have hlt : stop < last :=
      UInt64.lt_of_lt_of_le (lt_codeEnd_of_inCode (hin stop line hline)) hlast
    obtain ⟨-, hback⟩ := htiled.split hline hentry hlt
    refine ⟨last, hlast, hnew.trans (hback.congr fun c hc _ => ?_)⟩
    rw [h.back c hc, if_neg (UInt64.not_lt.2 (UInt64.le_trans hsync hc))]

/-- Decoding begins again at an old line, or behind all of them. -/
theorem startAt_tiled {last : UInt64} (htiled : Tiled lines b last) (hba : b ≤ a) :
    (∃ line, lines[lines.startAt a]? = some line) ∨ lines.startAt a = a ∧ last ≤ a := by
  rcases Lines.startAt_cases lines a with ⟨line, hline, -⟩ | ⟨heq, hmax⟩
  · exact .inl ⟨line, hline⟩
  · refine .inr ⟨heq, ?_⟩
    by_contra hlt
    obtain ⟨c, line, hline, hca, hac, hgap⟩ := htiled.covered hba (UInt64.not_le.1 hlt)
    refine UInt64.lt_irrefl a (UInt64.lt_of_lt_of_le hac (hmax c line hline hca ?_))
    intro d other hd hda
    by_contra hcd
    rw [hgap d (UInt64.not_le.1 hcd) hda] at hd
    cases hd

theorem kept_edit (h : Kept listing) (ha : listing.machine.memory.entry ≤ a)
    (hs : Straight (listing.machine.write a bytes)) : Kept (listing.edit a bytes).1 := by
  obtain ⟨stop, hnew⟩ := edit_redone listing a bytes hs
  obtain ⟨hentry, hend, hstrict⟩ := Memory.entry_write listing.machine.memory a bytes
  have hlenient : (listing.machine.write a bytes).memory.strict = false := hstrict.trans h.lenient
  have hin (c : UInt64) (line : Line) (hc : listing.lines[c]? = some line) :
      (listing.machine.write a bytes).memory.inCode c = true :=
    (Memory.inCode_write listing.machine.memory a c bytes).trans (h.own c line hc).1
  obtain ⟨last, hlast, htiled⟩ := h.tiled
  rw [← hend] at hlast
  rw [← hentry] at htiled ha
  refine ⟨hlenient, fun b line hb => ?_, ?_⟩
  · rcases hnew.origin hb with hold | hd
    · exact ⟨hin b line hold, (h.own b line hold).2⟩
    · exact start_of_decode? hd
  · rcases startAt_tiled htiled ha with ⟨line, hline⟩ | ⟨heq, hbehind⟩
    · obtain ⟨hle, hlt⟩ := Memory.inCode_iff.1 (hin _ line hline)
      have hlt := UInt64.lt_of_lt_of_le hlt hlast
      have hfront := (htiled.split hline hle hlt).1
      obtain ⟨stop', hend', htiled'⟩ := hnew.tiled hs hlenient hle hin hfront hlast htiled
      exact ⟨stop', hend', htiled'⟩
    · refine ⟨last, hlast, htiled.congr fun c _ hc => hnew.front c ?_⟩
      rw [heq]
      exact UInt64.lt_of_lt_of_le hc hbehind

end Kept

/-- A listing of a program in memory that is not strict, made at once or by editing one. No encoding
in the program runs past the last address. -/
inductive Made : Listing → Prop where
  | load {m : Machine} (hlenient : m.memory.strict = false) (hs : Straight m) : Made (ofMachine m)
  | toggle {listing : Listing} (h : Made listing) (a : UInt64) :
    Made (listing.toggleBreakpoint a).2
  | flash {listing : Listing} (h : Made listing) {a : UInt64} {bytes : List UInt8}
    (ha : listing.machine.memory.entry ≤ a) (hs : Straight (listing.flash a bytes).machine) :
    Made (listing.flash a bytes)

/-- Decoding again for the edit comes to its end by itself: with enough fuel, it does not matter how
much there is. -/
def Settles (listing : Listing) (a : UInt64) (bytes : List UInt8) : Prop :=
  let edited := editEnd a bytes.length
  let start := listing.lines.startAt a
  ∃ enough, ∀ fuel ≥ enough, redecode (listing.machine.write a bytes) edited fuel
    ⟨listing.lines.dropRange start edited, [], 0, start⟩ = (listing.edit a bytes).2

/-- What holds of the lines that a listing keeps. -/
structure Sound (listing : Listing) : Prop where
  keyed : ∀ (b : UInt64) (line : Line), listing.lines[b]? = some line → line.address = b
  /-- In address order the lines tile the program. -/
  tiles : ∃ stop, listing.machine.memory.codeEnd ≤ stop ∧
    Tiles listing.machine.memory.entry (listing.lines.toList.map Prod.snd) stop
  empty : listing.machine.memory.codeEnd ≤ listing.machine.memory.entry → listing.lines = ∅
  breakpoint : ∀ (b : UInt64) (line : Line), listing.lines[b]? = some line →
    line.info.contains .breakpoint = listing.machine.isBreakpoint b
  invalid : ∀ (b : UInt64) (line : Line), listing.lines[b]? = some line →
    (line.info.contains .invalid = true ↔ line.text = "BAD INSTRUCTION")
  /-- The mark of the instruction pointer is put on what is shown, and never kept. -/
  unmarked : ∀ (b : UInt64) (line : Line), listing.lines[b]? = some line →
    line.info.contains .ipHere = false

theorem Kept.sound {listing : Listing} (h : Kept listing) : Sound listing := by
  obtain ⟨stop, hend, htiled⟩ := h.tiled
  have hkey (b : UInt64) (line : Line) (hb : listing.lines[b]? = some line) : line.address = b := by
    obtain ⟨-, l, hl, rfl⟩ := h.own b line hb
    rw [lineFor_address, hl]
  have hin (b : UInt64) (line : Line) (hb : listing.lines[b]? = some line) :
      listing.machine.memory.entry ≤ b ∧ b < listing.machine.memory.codeEnd :=
    Memory.inCode_iff.1 (h.own b line hb).1
  refine
    { keyed := hkey
      tiles := ⟨stop, hend, htiled.tiles hkey fun b line hb => ?_⟩
      empty := fun hempty => ?_
      breakpoint := fun b line hb => ?_
      invalid := fun b line hb => ?_
      unmarked := fun b line hb => ?_ }
  · exact ⟨(hin b line hb).1, UInt64.lt_of_lt_of_le (hin b line hb).2 hend⟩
  · refine Lines.ext_some fun b line => ⟨fun hb => ?_, fun hb => ?_⟩
    · obtain ⟨hle, hlt⟩ := hin b line hb
      exact absurd (UInt64.lt_of_lt_of_le hlt (UInt64.le_trans hempty hle)) (UInt64.lt_irrefl b)
    · rw [Std.ExtTreeMap.getElem?_empty] at hb
      cases hb
  · obtain ⟨-, l, rfl, rfl⟩ := h.own b line hb
    exact (Machine.lineFor_contains _ l).2.1
  · obtain ⟨-, l, -, rfl⟩ := h.own b line hb
    exact Machine.lineFor_text_bad_iff _ l
  · obtain ⟨-, l, -, rfl⟩ := h.own b line hb
    exact (Machine.lineFor_contains _ l).2.2

theorem Made.kept {listing : Listing} (h : Made listing) : Kept listing := by
  induction h with
  | load hlenient hs => exact kept_ofMachine hlenient hs
  | toggle _ a ih => exact kept_toggle ih a
  | @flash listing _ a bytes ha hs ih =>
    rcases bytes with _ | ⟨byte, rest⟩
    · exact ih
    · exact kept_edit ih ha hs

/-- More fuel than there are bytes to decode makes no difference. -/
theorem redecode_add {m : Machine} (hs : Straight m) (edited : UInt64) (fuel extra : Nat)
    (r : Redecoded) (hf : m.memory.codeEnd.toNat ≤ r.ip.toNat + fuel) :
    redecode m edited (fuel + extra) r = redecode m edited fuel r := by
  induction fuel generalizing r with
  | zero =>
    have hend : m.memory.codeEnd ≤ r.ip := by
      rw [UInt64.le_iff_toNat_le]
      omega
    rcases extra with _ | extra
    · rfl
    · change redecode m edited (0 + (extra + 1)) r = r
      rw [Nat.zero_add]
      unfold redecode
      exact if_pos hend
  | succ fuel ih =>
    rw [Nat.add_right_comm]
    unfold redecode
    split_ifs
    · rfl
    · rfl
    · cases hd : decode? m r.ip with
      | none => rfl
      | some line =>
        have hlt := UInt64.lt_iff_toNat_lt.1 (lt_stop_of_decode? hs hd)
        refine ih (found r line) ?_
        change m.memory.codeEnd.toNat ≤ line.stop.toNat + fuel
        omega

theorem settles_of_straight {listing : Listing} {a : UInt64} {bytes : List UInt8}
    (hs : Straight (listing.machine.write a bytes)) : Settles listing a bytes := by
  let room := (listing.machine.write a bytes).memory.codeEnd.toNat - (listing.lines.startAt a).toNat
  refine ⟨room, fun fuel hfuel => ?_⟩
  obtain ⟨extra, rfl⟩ := Nat.exists_eq_add_of_le hfuel
  refine redecode_add hs _ room extra _ ?_
  dsimp only [room]
  omega

/-- Every listing is sound, and every edit of it comes to an end. -/
theorem made_sound {listing : Listing} (h : Made listing) :
    Sound listing ∧ ∀ a bytes, Straight (listing.machine.write a bytes) →
      Settles listing a bytes :=
  ⟨h.kept.sound, fun _ _ => settles_of_straight⟩

def slide : Machine := .ofCode [0x90, 0x90, 0x90, 0x90]

/-- The second `NOP` becomes a `MOV` that takes the others in, one of them with a breakpoint. -/
def patched : Listing := ((ofMachine slide).toggleBreakpoint 0x1002).2.flash 0x1001 [0xB8]

theorem straight_of_zero {m : Machine} (hend : m.memory.codeEnd ≤ 0x1004)
    (hzero : m.memory.readByte 0x1004 = .ok 0) : Straight m :=
  straight_of_stop hend (by decide) fun byte h => by
    rw [hzero] at h
    cases h
    rfl

theorem patched_sound :
    (Sound patched ∧ Settles patched 0x1001 [0x90]) ∧ patched.machine.isBreakpoint 0x1002 = true ∧
    patched.lines.toList.map (fun entry => (entry.1, entry.2.stop, entry.2.info)) =
      [(0x1000, 0x1001, .none), (0x1001, 0x1006, .none)] := by
  have hslide : Straight slide := straight_of_zero (by decide) (by rfl)
  have hpatched : Straight patched.machine := straight_of_zero (by decide) (by rfl)
  have hback : Straight (patched.machine.write 0x1001 [0x90]) :=
    straight_of_zero (by decide) (by rfl)
  have hmade : Made patched := .flash (.toggle (.load (by rfl) hslide) 0x1002) (by decide) hpatched
  obtain ⟨hsound, hsettles⟩ := made_sound hmade
  exact ⟨⟨hsound, hsettles 0x1001 [0x90] hback⟩, by rfl, by decide +kernel⟩

end Listing

end LongMode

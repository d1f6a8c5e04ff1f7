import LongMode.Proofs.Listing.Redecode
/-!
An edit of a listing against a listing from scratch. Decoding again begins at the line that covers
the first edited byte. It misses a line in front of it that has looked at that byte, it leaves the
lines behind an address that has lost its line, and it begins at an address of its own where the edit
is in front of the program or behind the end of the listing. An edit is harmless if none of this
shows.
-/

namespace LongMode.Listing

/-- The machine `n` is `m` with the bytes from `a` up to but not including `edited` replaced. -/
structure Edited (m n : Machine) (a edited : UInt64) : Prop where
  straight : Straight m
  straight' : Straight n
  entry : n.memory.entry = m.memory.entry
  le : a ≤ edited
  front : ∀ p line, decode? m p = some line → line.stop < a → decode? n p = some line
  back : ∀ p, edited ≤ p → decode? n p = decode? m p

/-- The listing `lines` of `m` comes to be one of `n` when it is decoded again for the edit. -/
structure Harmless (m n : Machine) (lines : Lines) (a edited : UInt64) : Prop where
  /-- A line that ends where the edit begins stays. -/
  before : ∀ (c : UInt64) (line : Line), lines[c]? = some line → line.stop = a →
    decode? n c = some line
  /-- The listing does not come to end in front of an old line. -/
  behind : ∀ (c : UInt64) (line : Line), lines[c]? = some line → edited ≤ c → c < stopAt n
  /-- An edit from in front of the program does not reach into it, or there is nothing to list. -/
  below : a < m.memory.entry → edited ≤ m.memory.entry ∨ stopAt n = m.memory.entry
  /-- An edit behind the listing makes no lines, neither there nor at the end of the listing. -/
  beyond : stopAt m < a → stopAt n = stopAt m ∧ decode? n a = none

/-- The lines `new` come from `lines` by decoding again from `start` up to `stop`. -/
structure Redone (n : Machine) (lines new : Lines) (start edited stop : UInt64) : Prop where
  reaches : Reaches n start stop
  front : ∀ b, b < start → new[b]? = lines[b]?
  back : ∀ b, stop ≤ b → new[b]? = if b < edited then none else lines[b]?
  between : ∀ (b : UInt64) (line : Line), start ≤ b → b < stop →
    (new[b]? = some line ↔ Reaches n start b ∧ decode? n b = some line)
  ends : decode? n stop = none ∨ edited ≤ stop ∧ ∃ line, lines[stop]? = some line

theorem redone_of_continues {n : Machine} {lines : Lines} {start edited : UInt64} {t : Redecoded}
    (hs : Straight n)
    (h : Continues n edited ⟨lines.dropRange start edited, [], 0, start⟩ t) :
    Redone n lines t.lines start edited t.ip where
  reaches := h.reaches
  front b hb := by
    rw [h.front b hb, Lines.getElem?_dropRange, if_neg]
    exact fun hn => absurd (UInt64.lt_of_le_of_lt hn.1 hb) (UInt64.lt_irrefl _)
  back b hb := by
    have hsb : start ≤ b := UInt64.le_trans (h.reaches.le hs) hb
    rw [h.back b hb, Lines.getElem?_dropRange]
    simp [hsb]
  between := h.between
  ends := by
    refine h.ends.imp_right fun ⟨hle, hmem⟩ => ⟨hle, ?_⟩
    have hget : (lines.dropRange start edited)[t.ip]? = lines[t.ip]? := by
      rw [Lines.getElem?_dropRange, if_neg]
      exact fun hn => absurd (UInt64.lt_of_lt_of_le hn.2 hle) (UInt64.lt_irrefl _)
    rw [Std.ExtTreeMap.contains_eq_isSome_getElem?, h.back t.ip (UInt64.le_refl _), hget] at hmem
    exact Option.isSome_iff_exists.1 hmem

/-- A line that is there after decoding again was there before or has been decoded. -/
theorem Redone.origin {n : Machine} {lines new : Lines} {start edited stop b : UInt64} {line : Line}
    (h : Redone n lines new start edited stop) (hb : new[b]? = some line) :
    lines[b]? = some line ∨ decode? n b = some line := by
  by_cases hfront : b < start
  · rw [h.front b hfront] at hb
    exact .inl hb
  by_cases hback : stop ≤ b
  · rw [h.back b hback] at hb
    split_ifs at hb
    exact .inl hb
  · exact .inr ((h.between b line (UInt64.not_lt.1 hfront) (UInt64.not_le.1 hback)).1 hb).2

section Flash

variable {m n : Machine} {lines new : Lines} {a edited stop b : UInt64} {line : Line}
  (he : Edited m n a edited)
  (hl : ∀ (b : UInt64) (line : Line), lines[b]? = some line ↔
    Reaches m m.memory.entry b ∧ decode? m b = some line)

include he hl

/-- Decoding again begins on the chain, or in front of the program, or behind the listing. -/
theorem startAt_cases :
    (Reaches m m.memory.entry (lines.startAt a) ∧ lines.startAt a ≤ a ∧
      (lines.startAt a = a ∨ ∃ line, decode? m (lines.startAt a) = some line ∧ a < line.stop)) ∨
    (lines.startAt a = a ∧ (a < m.memory.entry ∨ stopAt m < a)) := by
  obtain ⟨line, hline, hle, hlt⟩ | ⟨heq, hmax⟩ := Lines.startAt_cases lines a
  · obtain ⟨hr, hd⟩ := (hl _ _).1 hline
    exact .inl ⟨hr, hle, .inr ⟨line, hd, hlt⟩⟩
  · by_cases hbelow : a < m.memory.entry
    · exact .inr ⟨heq, .inl hbelow⟩
    by_cases hbeyond : stopAt m < a
    · exact .inr ⟨heq, .inr hbeyond⟩
    left
    rw [heq]
    refine ⟨?_, UInt64.le_refl a, .inl rfl⟩
    have hend : a = stopAt m := by
      by_contra hne
      -- every address inside the listing is covered
      have hlt := UInt64.lt_of_le_of_ne (UInt64.not_lt.1 hbeyond) hne
      obtain ⟨r, line, hr, hd, hra, har⟩ :=
        (reaches_stopAt he.straight).covered (UInt64.not_lt.1 hbelow) hlt
      have hstop := hmax r line ((hl r line).2 ⟨hr, hd⟩) hra fun c other hc hca => by
        by_contra hrc
        have hstop := hr.stop_le he.straight hd ((hl c other).1 hc).1 (UInt64.not_le.1 hrc)
        exact UInt64.lt_irrefl _ (UInt64.lt_of_lt_of_le har (UInt64.le_trans hstop hca))
      exact UInt64.lt_irrefl _ (UInt64.lt_of_lt_of_le har hstop)
    rw [hend]
    exact reaches_stopAt he.straight

omit hl in
theorem reaches_of_before {start : UInt64} (hr : Reaches m m.memory.entry start) (hle : start ≤ a)
    (hbefore : ∀ c line, Reaches m m.memory.entry c → decode? m c = some line → line.stop = a →
      decode? n c = some line) :
    (∀ r line, Reaches m m.memory.entry r → decode? m r = some line → line.stop ≤ start →
      decode? n r = some line) ∧ Reaches n n.memory.entry start := by
  have hagree : ∀ r line, Reaches m m.memory.entry r → decode? m r = some line →
      line.stop ≤ start → decode? n r = some line := by
    intro r line hr hd hstop
    by_cases hlt : line.stop < a
    · exact he.front r line hd hlt
    · exact hbefore r line hr hd (by grind)
  refine ⟨hagree, ?_⟩
  rw [he.entry]
  exact hr.congr fun r line hr' hq hd => hagree r line hr' hd (hq.le he.straight)

/-- Decoding again from the chain on is decoding from scratch. -/
theorem inStep_of_reaches {start : UInt64} (hr : Reaches m m.memory.entry start) (hle : start ≤ a)
    (h : Harmless m n lines a edited) (hnew : Redone n lines new start edited stop) :
    new[b]? = some line ↔ Reaches n n.memory.entry b ∧ decode? n b = some line := by
  obtain ⟨hagree, hstart⟩ := reaches_of_before he hr hle fun c line hc hd =>
    h.before c line ((hl c line).2 ⟨hc, hd⟩)
  by_cases hfront : b < start
  · rw [hnew.front b hfront, hl, he.entry]
    exact hr.front_iff he.straight he.straight' hagree hfront
  have hfront : start ≤ b := UInt64.not_lt.1 hfront
  have htail : Reaches n n.memory.entry b ↔ Reaches n start b :=
    ⟨fun hb => hstart.total he.straight' hb hfront, hstart.trans⟩
  by_cases hbetween : b < stop
  · rw [hnew.between b line hfront hbetween, htail]
  have hback : stop ≤ b := UInt64.not_lt.1 hbetween
  have hstop : Reaches n n.memory.entry stop := hstart.trans hnew.reaches
  have htail : Reaches n n.memory.entry b ↔ Reaches n stop b :=
    ⟨fun hb => hstop.total he.straight' hb hback, hstop.trans⟩
  rw [hnew.back b hback, htail]
  obtain hnone | ⟨hsync, other, hother⟩ := hnew.ends
  · -- the listing ends here: no old line is left behind
    have hend := stopAt_eq he.straight' hstop hnone
    constructor
    · intro hb
      split_ifs at hb with hbe
      have := h.behind b line hb (UInt64.not_lt.1 hbe)
      grind
    · rintro ⟨hb, hd⟩
      rw [hb.eq_of_none hnone, hnone] at hd
      cases hd
  · -- from a line that is still there the chain is the old one
    have hbe : ¬ b < edited := by grind
    have hbefore := ((hl _ _).1 hother).1
    have hagree (c : UInt64) (hc : stop ≤ c) : decode? n c = decode? m c :=
      he.back c (UInt64.le_trans hsync hc)
    rw [if_neg hbe, hl, hagree b hback]
    refine and_congr_left fun hd => ⟨fun hb => ?_, fun hb => ?_⟩
    · exact (hbefore.total he.straight hb hback).back_congr he.straight hagree
    · exact hbefore.trans (hb.back_congr he.straight' fun c hc => (hagree c hc).symm)

omit hl in
theorem decode?_below (hbelow : a < m.memory.entry) : decode? n a = none := by
  rw [← he.entry] at hbelow
  refine decode?_outside ?_
  rw [Bool.eq_false_iff, ne_eq, Memory.inCode_iff]
  exact fun hc => UInt64.not_le.2 hbelow hc.1

theorem inStep_of_below (hbelow : a < m.memory.entry) (h : Harmless m n lines a edited)
    (hnew : Redone n lines new a edited stop) :
    new[b]? = some line ↔ Reaches n n.memory.entry b ∧ decode? n b = some line := by
  have hstop : stop = a := hnew.reaches.eq_of_none (decode?_below he hbelow)
  have hentry {c : UInt64} {other : Line} (hc : lines[c]? = some other) : m.memory.entry ≤ c :=
    ((hl c other).1 hc).1.le he.straight
  have hold : new[b]? = some line ↔ lines[b]? = some line ∧ edited ≤ b := by
    by_cases hba : b < a
    · rw [hnew.front b hba]
      have := @hentry b line
      grind
    · rw [hnew.back b (by grind)]
      split_ifs <;> grind
  rw [hold, he.entry]
  rcases h.below hbelow with hedited | hempty
  · have hagree (c : UInt64) (hc : m.memory.entry ≤ c) : decode? n c = decode? m c :=
      he.back c (UInt64.le_trans hedited hc)
    constructor
    · rintro ⟨hb, -⟩
      have hle := hentry hb
      obtain ⟨hr, hd⟩ := (hl b line).1 hb
      exact ⟨hr.back_congr he.straight hagree, by rw [hagree b hle, hd]⟩
    · rintro ⟨hr, hd⟩
      have hle := hr.le he.straight'
      refine ⟨(hl b line).2 ⟨?_, by rw [← hagree b hle, hd]⟩, UInt64.le_trans hedited hle⟩
      exact hr.back_congr he.straight' fun c hc => (hagree c hc).symm
  · constructor
    · rintro ⟨hb, hle⟩
      have hlt := h.behind b line hb hle
      have := hentry hb
      grind
    · rintro ⟨hr, hd⟩
      have hnone := decode?_stopAt he.straight'
      rw [hempty] at hnone
      rw [hr.eq_of_none hnone, hnone] at hd
      cases hd

theorem inStep_of_beyond (hbeyond : stopAt m < a) (h : Harmless m n lines a edited)
    (hnew : Redone n lines new a edited stop) :
    new[b]? = some line ↔ Reaches n n.memory.entry b ∧ decode? n b = some line := by
  obtain ⟨hend, hnone⟩ := h.beyond hbeyond
  have hstop : stop = a := hnew.reaches.eq_of_none hnone
  have hlt {c : UInt64} {other : Line} (hc : lines[c]? = some other) : c < stopAt m :=
    lt_stopAt he.straight ((hl c other).1 hc).1 ((hl c other).1 hc).2
  have hold : new[b]? = some line ↔ lines[b]? = some line := by
    have := @hlt b line
    by_cases hba : b < a
    · rw [hnew.front b hba]
    · rw [hnew.back b (by grind)]
      split_ifs <;> grind
  rw [hold, hl, he.entry]
  by_cases hb : b < stopAt m
  · refine (reaches_stopAt he.straight).front_iff he.straight he.straight' ?_ hb
    intro r other _ hd hstop
    exact he.front r other hd (UInt64.lt_of_le_of_lt hstop hbeyond)
  · constructor
    · rintro ⟨hr, hd⟩
      exact absurd (lt_stopAt he.straight hr hd) hb
    · rintro ⟨hr, hd⟩
      rw [← he.entry] at hr
      rw [← hend] at hb
      exact absurd (lt_stopAt he.straight' hr hd) hb

/-- Where decoding again begins if not on the chain. -/
theorem startAt_eq (h : a < m.memory.entry ∨ stopAt m < a) : lines.startAt a = a := by
  obtain ⟨hr, hle, hcase⟩ | ⟨heq, -⟩ := startAt_cases he hl
  · have hentry := hr.le he.straight
    have hend := reaches_le_stopAt he.straight hr
    obtain heq | ⟨line, hd, hlt⟩ := hcase
    · exact heq
    · have := reaches_le_stopAt he.straight (hr.snoc hd)
      grind
  · exact heq

theorem lt_startAt_of_stop_eq (hb : lines[b]? = some line) (hstop : line.stop = a) :
    b < lines.startAt a := by
  obtain ⟨hrb, hdb⟩ := (hl b line).1 hb
  have hlt := lt_stop_of_decode? he.straight hdb
  rw [hstop] at hlt
  obtain ⟨hr, hle, heq | ⟨other, hd, hcover⟩⟩ | ⟨heq, -⟩ := startAt_cases he hl
  · rwa [heq]
  · by_contra hn
    have hn : lines.startAt a ≤ b := UInt64.not_lt.1 hn
    by_cases hsame : lines.startAt a = b
    · rw [hsame, hdb] at hd
      cases hd
      grind
    · have := hr.stop_le he.straight hd hrb (UInt64.lt_of_le_of_ne hn hsame)
      grind
  · rwa [heq]

section InStep

variable (hnew : Redone n lines new (lines.startAt a) edited stop)
  (hin : ∀ (b : UInt64) (line : Line), new[b]? = some line ↔
    Reaches n n.memory.entry b ∧ decode? n b = some line)

include hnew hin

theorem before_of_inStep (hb : lines[b]? = some line) (hstop : line.stop = a) :
    decode? n b = some line := by
  rw [← hnew.front b (lt_startAt_of_stop_eq he hl hb hstop)] at hb
  exact ((hin b line).1 hb).2

theorem behind_of_inStep (hb : lines[b]? = some line) (hle : edited ≤ b) : b < stopAt n := by
  obtain ⟨hrb, hdb⟩ := (hl b line).1 hb
  by_cases hback : stop ≤ b
  · have hnewb : new[b]? = some line := by rw [hnew.back b hback, if_neg (by grind), hb]
    exact lt_stopAt he.straight' ((hin b line).1 hnewb).1 ((hin b line).1 hnewb).2
  obtain ⟨hr, hsa, -⟩ | ⟨heq, hout⟩ := startAt_cases he hl
  · obtain ⟨-, hstart⟩ := reaches_of_before he hr hsa fun c other hc hd hstop =>
      before_of_inStep he hl hnew hin ((hl c other).2 ⟨hc, hd⟩) hstop
    have := reaches_le_stopAt he.straight' (hstart.trans hnew.reaches)
    grind
  · -- outside of the chain the edit leaves room for no line between its end and `stop`
    have hentry := hrb.le he.straight
    have hend := lt_stopAt he.straight hrb hdb
    rcases hout with hbelow | hbeyond
    · have hstop := hnew.reaches
      rw [heq] at hstop
      have := hstop.eq_of_none (decode?_below he hbelow)
      grind
    · have := he.le
      grind

theorem below_of_inStep (hbelow : a < m.memory.entry) :
    edited ≤ m.memory.entry ∨ stopAt n = m.memory.entry := by
  by_contra hnot
  rw [not_or, UInt64.not_le] at hnot
  have heq := startAt_eq he hl (.inl hbelow)
  have hstop := hnew.reaches
  rw [heq] at hstop
  have hstop := hstop.eq_of_none (decode?_below he hbelow)
  have hnone : new[m.memory.entry]? = none := by
    rw [hnew.back _ (by grind), if_pos hnot.1]
  have hentry := stopAt_eq he.straight' (.refl n.memory.entry)
  rw [he.entry] at hentry
  refine hnot.2 (hentry ?_)
  by_contra hsome
  obtain ⟨line, hd⟩ := Option.ne_none_iff_exists'.1 hsome
  have hline := (hin m.memory.entry line).2 ⟨by rw [he.entry]; exact .refl _, hd⟩
  rw [hnone] at hline
  cases hline

theorem beyond_of_inStep (hbeyond : stopAt m < a) : stopAt n = stopAt m ∧ decode? n a = none := by
  have heq := startAt_eq he hl (.inr hbeyond)
  have hreach : Reaches n n.memory.entry (stopAt m) := by
    rw [he.entry]
    refine (reaches_stopAt he.straight).congr fun r line _ hq hd => he.front r line hd ?_
    exact UInt64.lt_of_le_of_lt (hq.le he.straight) hbeyond
  have hend : decode? n (stopAt m) = none := by
    by_contra hsome
    obtain ⟨line, hd⟩ := Option.ne_none_iff_exists'.1 hsome
    have hline := (hin _ line).2 ⟨hreach, hd⟩
    rw [hnew.front _ (by rw [heq]; exact hbeyond), hl, decode?_stopAt he.straight] at hline
    cases hline.2
  refine ⟨stopAt_eq he.straight' hreach hend, ?_⟩
  by_contra hsome
  obtain ⟨line, hd⟩ := Option.ne_none_iff_exists'.1 hsome
  -- a line found at `a` would be in the listing and not on the chain
  have hat : stop ≠ a := by
    rintro rfl
    obtain hnone | ⟨-, other, hother⟩ := hnew.ends
    · rw [hd] at hnone
      cases hnone
    · have := lt_stopAt he.straight ((hl _ _).1 hother).1 ((hl _ _).1 hother).2
      grind
  have hle := hnew.reaches.le he.straight'
  rw [heq] at hle
  have hline : new[a]? = some line := by
    rw [hnew.between a line (by rw [heq]; exact UInt64.le_refl a) (by grind), heq]
    exact ⟨.refl a, hd⟩
  have hon := ((hin a line).1 hline).1
  have := (hreach.total he.straight' hon (UInt64.le_of_lt hbeyond)).eq_of_none hend
  grind

end InStep

/-- Decoding again comes to the listing from scratch exactly when the edit is harmless. -/
theorem redone_inStep_iff (hnew : Redone n lines new (lines.startAt a) edited stop) :
    new = (ofMachine n).lines ↔ Harmless m n lines a edited := by
  constructor
  · intro h
    have hin : ∀ (b : UInt64) (line : Line), new[b]? = some line ↔
        Reaches n n.memory.entry b ∧ decode? n b = some line := by
      intro b line
      rw [h, ofMachine_getElem? he.straight']
    exact
    { before := fun _ _ => before_of_inStep he hl hnew hin
      behind := fun _ _ => behind_of_inStep he hl hnew hin
      below := below_of_inStep he hl hnew hin
      beyond := beyond_of_inStep he hl hnew hin }
  · intro h
    refine Lines.ext_some fun b line => ?_
    rw [ofMachine_getElem? he.straight']
    obtain ⟨hr, hle, -⟩ | ⟨heq, hbelow | hbeyond⟩ := startAt_cases he hl
    · exact inStep_of_reaches he hl hr hle h hnew
    · rw [heq] at hnew
      exact inStep_of_below he hl hbelow h hnew
    · rw [heq] at hnew
      exact inStep_of_beyond he hl hbeyond h hnew

end Flash

end LongMode.Listing

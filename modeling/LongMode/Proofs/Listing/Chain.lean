import LongMode.Proofs.Listing.Decode
import LongMode.Proofs.Listing.Lines
import LongMode.Proofs.Run.Disassembly
/-!
The chain of lines from an address: each line starts where the one before it stops. A listing from
scratch is the chain from the entry of the program up to the first address that has no line.
-/

namespace LongMode.Listing

/-- Decoding line after line from `p` comes to `q`. -/
inductive Reaches (m : Machine) : UInt64 → UInt64 → Prop where
  | refl (p : UInt64) : Reaches m p p
  | next {p q : UInt64} {line : Line} (h : decode? m p = some line) (hq : Reaches m line.stop q) :
    Reaches m p q

namespace Reaches

variable {m n : Machine} {p q r : UInt64} {line : Line}

theorem le (hs : Straight m) (h : Reaches m p q) : p ≤ q := by
  induction h with
  | refl p => exact UInt64.le_refl p
  | next hd _ ih => exact UInt64.le_of_lt (UInt64.lt_of_lt_of_le (lt_stop_of_decode? hs hd) ih)

theorem trans (h : Reaches m p q) (h' : Reaches m q r) : Reaches m p r := by
  induction h with
  | refl p => exact h'
  | next hd _ ih => exact .next hd (ih h')

theorem snoc (h : Reaches m p q) (hd : decode? m q = some line) : Reaches m p line.stop :=
  h.trans (.next hd (.refl _))

theorem eq_of_none (h : Reaches m p q) (hd : decode? m p = none) : q = p := by
  cases h with
  | refl p => rfl
  | next hd' _ => rw [hd] at hd'; cases hd'

/-- There is one chain only: of two addresses on it, one is reached from the other. -/
theorem total (hs : Straight m) (hq : Reaches m p q) (hr : Reaches m p r) (hqr : q ≤ r) :
    Reaches m q r := by
  induction hq with
  | refl p => exact hr
  | next hd hq ih =>
    cases hr with
    | refl p =>
      have hlt := lt_stop_of_decode? hs hd
      have hle := hq.le hs
      exact absurd (UInt64.lt_of_lt_of_le hlt (UInt64.le_trans hle hqr)) (UInt64.lt_irrefl _)
    | next hd' hr =>
      rw [hd] at hd'
      cases hd'
      exact ih hr hqr

/-- No address on the chain lies within a line. -/
theorem stop_le (hs : Straight m) (hq : Reaches m p q) (hd : decode? m q = some line)
    (hr : Reaches m p r) (hlt : q < r) : line.stop ≤ r := by
  cases hq.total hs hr (UInt64.le_of_lt hlt) with
  | refl p => exact absurd hlt (UInt64.lt_irrefl _)
  | next hd' hr =>
    rw [hd] at hd'
    cases hd'
    exact hr.le hs

/-- Every address that the chain passes lies within a line. -/
theorem covered (h : Reaches m p q) {a : UInt64} (hp : p ≤ a) (hq : a < q) :
    ∃ r line, Reaches m p r ∧ decode? m r = some line ∧ r ≤ a ∧ a < line.stop := by
  induction h with
  | refl p => exact absurd (UInt64.lt_of_le_of_lt hp hq) (UInt64.lt_irrefl _)
  | @next p q line hd _ ih =>
    by_cases ha : a < line.stop
    · exact ⟨p, line, .refl p, hd, hp, ha⟩
    · obtain ⟨r, line', hr, hd', hra, har⟩ := ih (UInt64.not_lt.1 ha) hq
      exact ⟨r, line', .next hd hr, hd', hra, har⟩

/-- A chain is the same in a machine that decodes its lines alike. -/
theorem congr (h : Reaches m p q)
    (hn : ∀ r line, Reaches m p r → Reaches m line.stop q → decode? m r = some line →
      decode? n r = some line) : Reaches n p q := by
  induction h with
  | refl p => exact .refl p
  | next hd hq ih =>
    exact .next (hn _ _ (.refl _) hq hd) (ih fun r line hr hq hd' => hn r line (.next hd hr) hq hd')

/-- In front of `q` the lines of the chain are the same in a machine that decodes them alike. -/
theorem front_iff (hs : Straight m) (hn : Straight n) (hq : Reaches m p q)
    (hagree : ∀ r line, Reaches m p r → decode? m r = some line → line.stop ≤ q →
      decode? n r = some line) {b : UInt64} (hb : b < q) :
    Reaches m p b ∧ decode? m b = some line ↔ Reaches n p b ∧ decode? n b = some line := by
  have copy {r : UInt64} (hr : Reaches m p r) (hrq : r < q) : Reaches n p r :=
    hr.congr fun c other hc hcr hd =>
      hagree c other hc hd (UInt64.le_trans (hcr.le hs) (UInt64.le_of_lt hrq))
  constructor
  · rintro ⟨hr, hd⟩
    exact ⟨copy hr hb, hagree b line hr hd (stop_le hs hr hd hq hb)⟩
  · rintro ⟨hr, hd⟩
    obtain ⟨r, other, hr', hd', hrb, hbr⟩ := hq.covered (hr.le hn) hb
    have hrq : r < q := UInt64.lt_of_le_of_lt hrb hb
    have hn' := hagree r other hr' hd' (stop_le hs hr' hd' hq hrq)
    by_cases hrb' : r = b
    · subst hrb'
      rw [hd] at hn'
      cases hn'
      exact ⟨hr', hd'⟩
    · have hlt : r < b := UInt64.lt_of_le_of_ne hrb hrb'
      have hstop := stop_le hn (copy hr' hrq) hn' hr hlt
      exact absurd (UInt64.lt_of_lt_of_le hbr hstop) (UInt64.lt_irrefl _)

theorem back_congr (hs : Straight m) (hagree : ∀ c, p ≤ c → decode? n c = decode? m c)
    (h : Reaches m p q) : Reaches n p q :=
  h.congr fun c _ hc _ hd => by rw [hagree c (hc.le hs), hd]

end Reaches

/-- No encoding that the chain from `a` on comes to runs past the last address. -/
def StraightFrom (m : Machine) (a : UInt64) : Prop := ∀ p l, Reaches m a p →
  m.memory.inCode p = true → Located.at? m.memory.readByte p = .ok l →
  p.toNat + l.size m.memory.readByte < 2 ^ 64

/-- Decoding at `a`, then where that line stops, and so on gives the lines and comes to `b`. -/
def Chain (m : Machine) : UInt64 → List Line → UInt64 → Prop
  | a, [], b => a = b
  | a, line :: rest, b => decode? m a = some line ∧ Chain m line.stop rest b

section Chain

variable {m : Machine} {a b p : UInt64} {line : Line} {lines : List Line}

theorem Straight.straightFrom (hs : Straight m) (a : UInt64) : StraightFrom m a :=
  fun p l _ => hs p l

theorem StraightFrom.next (hs : StraightFrom m a) (hd : decode? m a = some line) :
    StraightFrom m line.stop := fun p l hp => hs p l (.next hd hp)

theorem StraightFrom.encoded (hs : StraightFrom m a) (hp : Reaches m a p)
    (hd : decode? m p = some line) : ∃ l, Located.at? m.memory.readByte p = .ok l ∧
      Encoded m p line l (l.size m.memory.readByte) := by
  obtain ⟨hc, l, hl, rfl⟩ := located_of_decode? hd
  exact ⟨l, hl, encoded_of_located hc hl (hs p l hp hc hl)⟩

namespace Chain

theorem reaches (h : Chain m a lines b) : Reaches m a b := by
  induction lines generalizing a with
  | nil =>
    cases h
    exact .refl _
  | cons line rest ih => exact .next h.1 (ih h.2)

theorem mem (h : Chain m a lines b) (hmem : line ∈ lines) :
    Reaches m a line.address ∧ decode? m line.address = some line := by
  induction lines generalizing a with
  | nil => exact absurd hmem List.not_mem_nil
  | cons first rest ih =>
    obtain ⟨hd, hrest⟩ := h
    rcases List.mem_cons.1 hmem with rfl | hmem
    · rw [address_of_decode? hd]
      exact ⟨.refl a, hd⟩
    · obtain ⟨hreaches, hline⟩ := ih hrest hmem
      exact ⟨.next hd hreaches, hline⟩

/-- A chain up to where no line follows has all the lines that there are. -/
theorem mem_of_reaches (h : Chain m a lines b) (hend : decode? m b = none) (hp : Reaches m a p)
    (hd : decode? m p = some line) : line ∈ lines := by
  induction lines generalizing a with
  | nil =>
    cases h
    rw [hp.eq_of_none hend, hend] at hd
    cases hd
  | cons first rest ih =>
    obtain ⟨hfirst, hrest⟩ := h
    cases hp with
    | refl =>
      rw [hfirst] at hd
      cases hd
      exact List.mem_cons_self
    | next hd' hp =>
      rw [hfirst] at hd'
      cases hd'
      exact List.mem_cons_of_mem _ (ih hrest hp)

theorem tiles (hs : StraightFrom m a) (h : Chain m a lines b) : Tiles a lines b := by
  induction lines generalizing a with
  | nil => exact h
  | cons line rest ih =>
    obtain ⟨hd, hrest⟩ := h
    obtain ⟨l, -, he⟩ := hs.encoded (.refl a) hd
    have hpos := he.spans.nonempty
    have hstop := he.stop
    refine ⟨he.address, ?_, ih (hs.next hd) hrest⟩
    rw [UInt64.lt_iff_toNat_lt]
    omega

end Chain

end Chain

def stopAt (m : Machine) : UInt64 := (wholeRun m).machine.ip

section Whole

variable {m : Machine} {b : UInt64} {line : Line}

theorem runOn_listing_succ {l : Located} (hc : m.memory.inCode b = true)
    (hl : Located.at? m.memory.readByte b = .ok l) (budget : Nat) (p : Progress) :
    Machine.runOn .listing (budget + 1) { m with ip := b } p =
      Machine.runOn .listing budget { m with ip := l.next }
        { p with
          lines := m.lineFor l :: p.lines
          executed := p.executed + 1
          modifiers := l.modifiers } := by
  have hl : ({ m with ip := b } : Machine).locate = .ok l := hl
  have hc : ({ m with ip := b } : Machine).inCode = true := hc
  rw [Machine.runOn_succ, if_pos hc, Machine.step_listing (s := .listing) hl rfl]
  refine (if_neg (not_not.2 rfl)).trans ?_
  by_cases h0 : budget = 0
  · subst h0
    rfl
  · rw [if_neg h0]
    rfl

/-- Why a run that lists ends at `b`, having found `count` lines with a budget for `limit`. -/
inductive Stops (m : Machine) (limit count : Nat) (b : UInt64) : StopReason → Prop where
  | spent (h : count = limit) : Stops m limit count b .step
  | outside (hc : m.memory.inCode b = false) : Stops m limit count b .endOfCode
  | unread (hc : m.memory.inCode b = true) {f : Fault}
    (hl : Located.at? m.memory.readByte b = .error (.fault f)) : Stops m limit count b (.fault f)

theorem Stops.succ {limit count : Nat} {stop : StopReason} (h : Stops m limit count b stop) :
    Stops m (limit + 1) (count + 1) b stop := by
  cases h with
  | spent h => exact .spent (by rw [h])
  | outside hc => exact .outside hc
  | unread hc hl => exact .unread hc hl

/-- No line follows, if the budget lasts for the program. -/
theorem Stops.decode?_eq_none {limit count : Nat} {stop : StopReason}
    (h : Stops m limit count b stop) (hend : limit ≤ count → m.memory.codeEnd ≤ b) :
    decode? m b = none := by
  cases h with
  | spent h => exact decode?_outside (not_inCode_of_codeEnd_le (hend h.ge))
  | outside hc => exact decode?_outside hc
  | unread hc hl => rw [decode?_eq, if_pos hc, hl]

/-- The run `r` has found `lines` from `b` on, after what `p` has recorded. -/
structure Found (m : Machine) (limit : Nat) (b : UInt64) (p : Progress) (lines : List Line)
    (r : Run) : Prop where
  chain : Chain m b lines r.machine.ip
  listed : r.progress.lines.reverse = p.lines.reverse ++ lines
  executed : r.progress.executed = p.executed + lines.length
  stops : Stops m limit lines.length r.machine.ip r.stop

theorem runOn_listing_outside (hc : m.memory.inCode b = false) (limit : Nat) (p : Progress) :
    Found m (limit + 1) b p [] (Machine.runOn .listing (limit + 1) { m with ip := b } p) := by
  have hc' : ({ m with ip := b } : Machine).inCode = false := hc
  rw [Machine.runOn_succ, if_neg (by simp [hc'])]
  exact ⟨rfl, by simp, rfl, .outside hc⟩

theorem runOn_listing_unread (hc : m.memory.inCode b = true) {h : Halt}
    (hl : Located.at? m.memory.readByte b = .error h) (limit : Nat) (p : Progress) :
    Found m (limit + 1) b p [] (Machine.runOn .listing (limit + 1) { m with ip := b } p) := by
  have hc' : ({ m with ip := b } : Machine).inCode = true := hc
  have hl' : ({ m with ip := b } : Machine).locate = .error h := hl
  obtain ⟨c, f, rfl, -⟩ := Located.at?_error hl
  obtain ⟨hevent, hmachine⟩ := Machine.step_of_error (s := .listing) hl'
  have hstop : (({ m with ip := b } : Machine).step .listing).event.stop ≠ .step := by
    rw [hevent]
    exact StopReason.ofHalt_ne_step (.fault f)
  obtain ⟨hlines, hexecuted, -⟩ := Progress.after_halted hstop p
  rw [Machine.runOn_succ, if_pos hc', if_pos hstop]
  refine ⟨?_, ?_, ?_, ?_⟩
  · rw [hmachine]
    rfl
  · simp only [hlines, List.append_nil]
  · exact hexecuted
  · rw [hmachine, hevent]
    exact .unread hc hl

/-- A run that lists finds the chain from where it begins, and says truly why it ends. -/
theorem runOn_found (m : Machine) (limit : Nat) (b : UInt64) (p : Progress) :
    ∃ lines, Found m limit b p lines (Machine.runOn .listing limit { m with ip := b } p) := by
  induction limit generalizing b p with
  | zero => exact ⟨[], rfl, by simp [Machine.runOn], rfl, .spent rfl⟩
  | succ limit ih =>
    by_cases hc : m.memory.inCode b = true
    · cases hl : Located.at? m.memory.readByte b with
      | error h => exact ⟨[], runOn_listing_unread hc hl limit p⟩
      | ok l =>
        have hd : decode? m b = some (m.lineFor l) := by rw [decode?_eq, if_pos hc, hl]
        rw [runOn_listing_succ hc hl]
        obtain ⟨rest, hfound⟩ := ih l.next
          { p with
            lines := m.lineFor l :: p.lines
            executed := p.executed + 1
            modifiers := l.modifiers }
        refine ⟨m.lineFor l :: rest, ⟨hd, ?_⟩, ?_, ?_, ?_⟩
        · rw [lineFor_stop]
          exact hfound.chain
        · rw [hfound.listed]
          simp
        · rw [hfound.executed, List.length_cons]
          dsimp only
          omega
        · exact hfound.stops.succ
    · exact ⟨[], runOn_listing_outside (by simpa using hc) limit p⟩

theorem wholeRun_eq (m : Machine) : wholeRun m =
    Machine.runOn .listing (UInt64.size - 1) { m with ip := m.memory.entry } {} := rfl

theorem wholeRun_machine (m : Machine) : (wholeRun m).machine = { m with ip := stopAt m } := by
  obtain ⟨ip, hm⟩ := Machine.runOn_moves (s := .listing) rfl (UInt64.size - 1)
    { m with ip := m.memory.entry } {}
  unfold stopAt
  rw [wholeRun_eq, hm]

theorem wholeRun_listing (hs : Straight m) : Reaches m m.memory.entry (stopAt m) ∧
    decode? m (stopAt m) = none ∧
    ∀ line, line ∈ (wholeRun m).status.lines ↔
      ∃ c, Reaches m m.memory.entry c ∧ decode? m c = some line := by
  obtain ⟨lines, hfound⟩ := runOn_found m (UInt64.size - 1) m.memory.entry {}
  rw [← wholeRun_eq] at hfound
  have hlines : (wholeRun m).status.lines = lines := hfound.listed.trans (List.nil_append _)
  have hend : decode? m (stopAt m) = none := hfound.stops.decode?_eq_none fun hspent => by
    have hle := (hfound.chain.tiles (hs.straightFrom _)).length_le
    have hlt := m.memory.codeEnd.toNat_lt
    have hsize : UInt64.size = 2 ^ 64 := rfl
    rw [UInt64.le_iff_toNat_le]
    omega
  rw [hlines]
  refine ⟨hfound.chain.reaches, hend, fun line => ⟨fun hmem => ?_, ?_⟩⟩
  · exact ⟨_, hfound.chain.mem hmem⟩
  · rintro ⟨c, hc, hd⟩
    exact hfound.chain.mem_of_reaches hend hc hd

/-- The lines of a listing from scratch. -/
theorem ofMachine_getElem? (hs : Straight m) : (ofMachine m).lines[b]? = some line ↔
    Reaches m m.memory.entry b ∧ decode? m b = some line := by
  obtain ⟨-, -, hlines⟩ := wholeRun_listing hs
  have hd : ∀ x ∈ (wholeRun m).status.lines, ∀ y ∈ (wholeRun m).status.lines,
      x.address = y.address → x = y := by
    intro x hx y hy hxy
    obtain ⟨c, -, hcx⟩ := (hlines x).1 hx
    obtain ⟨c', -, hcy⟩ := (hlines y).1 hy
    rw [address_of_decode? hcx, address_of_decode? hcy] at hxy
    subst hxy
    rw [hcx] at hcy
    exact Option.some.inj hcy
  refine (Lines.getElem?_ofList hd).trans ⟨?_, ?_⟩
  · rintro ⟨hmem, hb⟩
    obtain ⟨c, hc, hcl⟩ := (hlines line).1 hmem
    rw [address_of_decode? hcl] at hb
    subst hb
    exact ⟨hc, hcl⟩
  · rintro ⟨hb, hbl⟩
    exact ⟨(hlines line).2 ⟨b, hb, hbl⟩, address_of_decode? hbl⟩

theorem ofMachine_machine (m : Machine) : (ofMachine m).machine = { m with ip := stopAt m } :=
  wholeRun_machine m

theorem reaches_stopAt (hs : Straight m) : Reaches m m.memory.entry (stopAt m) :=
  (wholeRun_listing hs).1

theorem decode?_stopAt (hs : Straight m) : decode? m (stopAt m) = none := (wholeRun_listing hs).2.1

theorem stopAt_eq (hs : Straight m) (h : Reaches m m.memory.entry b) (hd : decode? m b = none) :
    stopAt m = b := by
  by_cases hle : b ≤ stopAt m
  · exact (h.total hs (reaches_stopAt hs) hle).eq_of_none hd
  · have hle := UInt64.le_of_lt (UInt64.not_le.1 hle)
    exact (((reaches_stopAt hs).total hs h hle).eq_of_none (decode?_stopAt hs)).symm

theorem reaches_le_stopAt (hs : Straight m) (h : Reaches m m.memory.entry b) : b ≤ stopAt m := by
  by_contra hle
  have hle := UInt64.le_of_lt (UInt64.not_le.1 hle)
  have heq := ((reaches_stopAt hs).total hs h hle).eq_of_none (decode?_stopAt hs)
  subst heq
  contradiction

theorem lt_stopAt (hs : Straight m) (h : Reaches m m.memory.entry b)
    (hd : decode? m b = some line) : b < stopAt m := by
  refine UInt64.lt_of_le_of_ne (reaches_le_stopAt hs h) ?_
  rintro rfl
  rw [decode?_stopAt hs] at hd
  cases hd

end Whole

end LongMode.Listing

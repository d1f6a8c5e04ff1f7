import LongMode.Proofs.Encoding.Segment
import LongMode.Proofs.Run.Outside
/-!
Encodings that differ in the run of modifiers in front of the opcode. Where the two runs have one
summary, a step does the same on both of them, whatever segments they name; where their last
segments agree too, both are listed as the same line.
-/

namespace LongMode

namespace Located

variable {f g : Fetch} {a : UInt64} {p q : List UInt8}

/-- Two runs of the same length stand in front of the same bytes, of which twelve are enough for an
instruction. -/
structure Runs (f g : Fetch) (a : UInt64) (p q : List UInt8) : Prop where
  left : f.Holds a p
  right : g.Holds a q
  modifiers : ∀ b ∈ p, Modifiers.isModifier b = true
  modifiers' : ∀ b ∈ q, Modifiers.isModifier b = true
  length : q.length = p.length
  behind : ∀ i < 12, g (a + UInt64.ofNat p.length + UInt64.ofNat i) =
    f (a + UInt64.ofNat p.length + UInt64.ofNat i)
  ends : ∀ b, f (a + UInt64.ofNat p.length) = .ok b → Modifiers.isModifier b = false

theorem Runs.at?_right (h : Runs f g a p q) :
    at? g a = (body (Modifiers.ofRun q) f (a + UInt64.ofNat p.length)).map fun r =>
      ⟨a, Modifiers.ofRun q, r.1.1, r.1.2.1, r.1.2.2, r.2⟩ := by
  have hfirst : g (a + UInt64.ofNat p.length) = f (a + UInt64.ofNat p.length) := by
    simpa using h.behind 0 (by decide)
  rw [at?_of_run h.right h.modifiers' (by rw [h.length, hfirst]; exact h.ends), h.length,
    body_congr h.behind]

/-- Behind runs of one summary the encodings differ in the segment at most. -/
theorem Runs.at?_eq (h : Runs f g a p q) (hsame : Modifiers.SameSummary p q) :
    at? g a = (at? f a).map (withSegment (Modifiers.ofRun q).segment) := by
  rw [h.at?_right, at?_of_run h.left h.modifiers h.ends, hsame.ofRun_eq h.modifiers h.modifiers',
    body_withSegment_apply]
  cases body (Modifiers.ofRun p) f (a + UInt64.ofNat p.length) <;> rfl

theorem Runs.at?_eq_of_segment (h : Runs f g a p q) (hsame : Modifiers.SameSummary p q)
    (hsegment : Modifiers.lastOf Modifiers.segmentGroup q =
      Modifiers.lastOf Modifiers.segmentGroup p) : at? g a = at? f a := by
  have hrun : Modifiers.ofRun q = Modifiers.ofRun p := by
    rw [hsame.ofRun_eq h.modifiers h.modifiers',
      Modifiers.segment_ofRun h.modifiers h.modifiers' hsegment]
    rfl
  rw [h.at?_right, at?_of_run h.left h.modifiers h.ends, hrun]

end Located

namespace Machine

variable {D : UInt64 → Prop} {s : Settings} {m k : Machine} {p q : List UInt8}

theorem locate_of_runs (hruns : Located.Runs m.memory.readByte k.memory.readByte m.ip p q)
    (hsame : Modifiers.SameSummary p q) (hip : k.ip = m.ip) :
    k.locate = m.locate.map (Located.withSegment (Modifiers.ofRun q).segment) := by
  unfold locate
  rw [hip, hruns.at?_eq hsame]

/-- A step on one encoding does what it does on the other one. -/
theorem step_of_runs (hruns : Located.Runs m.memory.readByte k.memory.readByte m.ip p q)
    (hsame : Modifiers.SameSummary p q) (h : m.SameOutside D k) (hip : k.ip = m.ip)
    (hd : s.disassemble = false) (hoff : m.KeepsOff D) :
    (m.step s).SameOutside D (k.step s) ∧ (k.step s).machine.ip = (m.step s).machine.ip := by
  have hk := locate_of_runs hruns hsame hip
  cases hl : m.locate with
  | error e =>
    rw [hl] at hk
    exact step_of_errors hl hk h hip
  | ok l =>
    rw [hl] at hk
    cases hi : l.instruction with
    | none =>
      have hi' : (l.withSegment (Modifiers.ofRun q).segment).instruction = none :=
        congrArg (Option.map _) hi
      rw [step_unknown hl hd hi, step_unknown hk hd hi', hip]
      exact ⟨⟨rfl, h.moveTo l.next l.next⟩, rfl⟩
    | some i =>
      have hi' : (l.withSegment (Modifiers.ofRun q).segment).instruction =
          some (i.withSegment (Modifiers.ofRun q).segment) := congrArg (Option.map _) hi
      obtain ⟨hwords, hstack⟩ := hoff l i hl hi
      have hx := i.execute_sameOutside (frameOf s l) (h.moveTo l.next l.next) rfl hwords hstack
      refine step_of_execute hl hk hd hi hi' hip ?_
      rw [i.execute_withSegment]
      exact hx

/-- Both encodings are listed as the same line, where their last segments agree. -/
theorem step_listed_of_runs (hruns : Located.Runs m.memory.readByte k.memory.readByte m.ip p q)
    (hsame : Modifiers.SameSummary p q)
    (hsegment : Modifiers.lastOf Modifiers.segmentGroup q =
      Modifiers.lastOf Modifiers.segmentGroup p) (h : m.SameOutside D k) (hip : k.ip = m.ip)
    (hd : s.disassemble = true) :
    (m.step s).SameOutside D (k.step s) ∧ (k.step s).machine.ip = (m.step s).machine.ip := by
  have hk : k.locate = m.locate := by
    unfold locate
    rw [hip, hruns.at?_eq_of_segment hsame hsegment]
  cases hl : m.locate with
  | error e =>
    rw [hl] at hk
    exact step_of_errors hl hk h hip
  | ok l =>
    rw [hl] at hk
    rw [step_listing hl hd, step_listing hk hd]
    refine ⟨⟨congrArg Event.listed ?_, h.moveTo l.next l.next⟩, rfl⟩
    unfold lineFor isBreakpoint
    rw [h.breakpoints]

/-- Of the modifiers in front of an instruction only the summary matters, to what it does and to
what a caller is told about it; the segment matters to its text alone. -/
theorem run_sameSummary (hruns : Located.Runs m.memory.readByte k.memory.readByte m.ip p q)
    (hsame : Modifiers.SameSummary p q) (h : m.SameOutside D k) (hip : k.ip = m.ip) :
    (∀ s : Settings, s.disassemble = false → m.KeepsOff D →
      (k.run s true).status = (m.run s true).status ∧
        (m.run s true).machine.SameOutside D (k.run s true).machine) ∧
    (∀ s : Settings, s.disassemble = true →
      Modifiers.lastOf Modifiers.segmentGroup q = Modifiers.lastOf Modifiers.segmentGroup p →
      (k.run s true).status = (m.run s true).status ∧
        (m.run s true).machine.SameOutside D (k.run s true).machine) ∧
    ∀ (i : Instruction) (segment : Option SegmentRegister),
      (i.withSegment segment).execute = i.execute := by
  refine ⟨fun s hd hoff => ?_, fun s hd hsegment => ?_, fun i _ => i.execute_withSegment⟩
  · obtain ⟨hstep, hnext⟩ := step_of_runs hruns hsame h hip hd hoff
    have hrun := run_sameOutside h hip hstep
    exact ⟨hrun.status (run_ip_eq h hip hnext), hrun.machine⟩
  · obtain ⟨hstep, hnext⟩ := step_listed_of_runs hruns hsame hsegment h hip hd
    have hrun := run_sameOutside h hip hstep
    exact ⟨hrun.status (run_ip_eq h hip hnext), hrun.machine⟩

/-- `REP STOSW` behind four modifiers, a REX byte that is not in force among them. -/
def filling : Machine :=
  ((ofCode [0x66, 0x48, 0xF3, 0x2E, 0xAB]).set (.counter .qword) 2).set
    (.destinationIndex .qword) 0x2000

/-- The same with other modifiers in their place. -/
theorem runs_filling {q : List UInt8} (hlength : q.length = 4)
    (hq : ∀ b ∈ q, Modifiers.isModifier b = true)
    (hread : (filling.write 0x1000 q).memory.read 0x1000 q.length = .ok q) :
    Located.Runs filling.memory.readByte (filling.write 0x1000 q).memory.readByte filling.ip
        [0x66, 0x48, 0xF3, 0x2E] q ∧
      filling.SameOutside (Element.Covers ⟨0x1000, .dword⟩) (filling.write 0x1000 q) := by
  have hsame := SameOutside.write (e := ⟨0x1000, .dword⟩) hlength filling
  have hopcode : filling.memory.readByte 0x1004 = .ok 0xAB := by rfl
  refine ⟨⟨Memory.holds_of_read (by rfl), Memory.holds_of_read hread, by decide +kernel, hq,
    hlength, fun i hi => hsame.readByte ?_, fun b hb => ?_⟩, hsame⟩
  · have hfree : ∀ i < 12, ¬ Element.Covers ⟨0x1000, .dword⟩
        (0x1000 + UInt64.ofNat [0x66, 0x48, 0xF3, 0x2E].length + UInt64.ofNat i) := by
      decide +kernel
    exact hfree i hi
  · cases hopcode.symm.trans hb
    decide +kernel

theorem filling_other_runs :
    ((filling.write 0x1000 [0x64, 0xF2, 0xF3, 0x66]).run .execute true).status =
      (filling.run .execute true).status ∧
    ((filling.write 0x1000 [0xF3, 0x41, 0x66, 0x2E]).run .listing true).status =
      (filling.run .listing true).status := by
  constructor
  · obtain ⟨hruns, hsame⟩ := runs_filling (q := [0x64, 0xF2, 0xF3, 0x66]) rfl (by decide +kernel)
      (by rfl)
    have hl : filling.locate = .ok ⟨0x1000,
        { operandSize := true, repetition := some .whileEqual, segment := some .cs }, .oneByte,
        0xAB, some (.string ⟨.store, .word, .qword, some .whileEqual, some .cs⟩), 0x1005⟩ := by rfl
    have hwords : ∀ e ∈ Instruction.elements
        (.string ⟨.store, .word, .qword, some .whileEqual, some .cs⟩) { filling with ip := 0x1005 },
        Element.Apart ⟨0x1000, .dword⟩ e := by decide +kernel
    have hoff := keepsOff_of_locate hl rfl hwords nofun
    exact ((run_sameSummary hruns ⟨by decide +kernel, by decide +kernel, by decide +kernel,
      by decide +kernel⟩ hsame rfl).1 _ rfl hoff).1
  · obtain ⟨hruns, hsame⟩ := runs_filling (q := [0xF3, 0x41, 0x66, 0x2E]) rfl (by decide +kernel)
      (by rfl)
    exact ((run_sameSummary hruns ⟨by decide +kernel, by decide +kernel, by decide +kernel,
      by decide +kernel⟩ hsame rfl).2.1 _ rfl (by decide +kernel)).1

end Machine

end LongMode

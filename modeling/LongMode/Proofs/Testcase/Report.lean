import LongMode.Proofs.Testcase.Journey
/-!
The report on a testcase. It tells of every checkpoint, in their order, whether the trace of single
steps comes to it behind the one before, and in what the machine that the trace comes there with
differs from it.
-/

namespace LongMode

/-! What a checkpoint asks for and a machine does not have. -/

def registerDiffers (m : Machine) (e : String × UInt64) : Bool :=
  (Register.ofName? e.1).any fun r => m.get r != e.2 &&& r.width.mask

def memoryDiffers (m : Machine) (e : MemoryExpectation) : Bool :=
  e.bytes.read.toOption.any fun bytes => m.memory.dump e.address bytes.length != bytes

/-- Some flag that `expected` defines has another value in `f`. -/
def Flags.differs (f expected : Flags) : Bool :=
  (f.toList.zip expected.toList).any fun (actual, want) => want.isSome && actual != want

/-- The differences found are those between the machine and the checkpoint. -/
structure Checkpoint.Compared (c : Checkpoint) (m : Machine) (found : List Mismatch) : Prop where
  register : ∀ name expected actual, .register name expected actual ∈ found ↔
    ∃ e ∈ c.registers, ∃ r, Register.ofName? e.1 = some r ∧
      name = String.ofList (Text.upper e.1.toList) ∧ expected = e.2 &&& r.width.mask ∧
      actual = m.get r ∧ actual ≠ expected
  memory : ∀ address expected actual, .memory address expected actual ∈ found ↔
    ∃ e ∈ c.memory, e.bytes.read = .ok expected ∧ address = e.address ∧
      actual = m.memory.dump e.address expected.length ∧ actual ≠ expected
  flags : ∀ expected actual, .flags expected actual ∈ found ↔
    m.flags.differs c.flags = true ∧ expected = c.flags ∧ actual = m.flags
  notReached : ∀ stop, .notReached stop ∉ found
  count : found.length = c.registers.countP (registerDiffers m) +
    c.memory.countP (memoryDiffers m) + if m.flags.differs c.flags then 1 else 0

def RegisterExpectation.ofEntry? (e : String × UInt64) : Option RegisterExpectation :=
  (Register.ofName? e.1).map fun r => ⟨String.ofList (Text.upper e.1.toList), r, e.2⟩

theorem RegisterExpectation.ofNamed_eq {entries : List (String × UInt64)}
    (h : ∀ e ∈ entries, (Register.ofName? e.1).isSome = true) :
    ofNamed entries = .ok (entries.filterMap ofEntry?) := by
  induction entries with
  | nil => rfl
  | cons e rest ih =>
    obtain ⟨name, value⟩ := e
    obtain ⟨r, hr⟩ := Option.isSome_iff_exists.1 (h (name, value) (by simp))
    have hrest := ih fun e he => h e (List.mem_cons_of_mem _ he)
    have hentry : ofEntry? (name, value) =
        some ⟨String.ofList (Text.upper name.toList), r, value⟩ := by
      unfold ofEntry?
      rw [hr]
      rfl
    unfold ofNamed
    rw [hr, hrest, List.filterMap_cons_some hentry]
    rfl

theorem Flags.agrees_eq (f expected : Flags) : f.agrees expected = !f.differs expected := by
  unfold agrees differs
  rw [List.all_eq_not_any_not]
  congr 2
  funext ⟨actual, want⟩
  cases want <;> simp [bne]

namespace Target

variable {c : Checkpoint} {m : Machine} {x : Mismatch}

/-- The mismatch of a register, if there is one. -/
theorem mem_registers_iff :
    x ∈ (c.registers.filterMap RegisterExpectation.ofEntry?).filterMap (·.check m) ↔
      ∃ e ∈ c.registers, ∃ r, Register.ofName? e.1 = some r ∧ m.get r ≠ e.2 &&& r.width.mask ∧
        x = .register (String.ofList (Text.upper e.1.toList)) (e.2 &&& r.width.mask) (m.get r) := by
  simp only [List.mem_filterMap, RegisterExpectation.ofEntry?, RegisterExpectation.check,
    Option.map_eq_some_iff]
  constructor
  · rintro ⟨_, ⟨e, he, r, hr, rfl⟩, hx⟩
    dsimp only at hx
    split_ifs at hx with hne
    cases hx
    exact ⟨e, he, r, hr, hne, rfl⟩
  · rintro ⟨e, he, r, hr, hne, rfl⟩
    exact ⟨_, ⟨e, he, r, hr, rfl⟩, if_neg hne⟩

theorem mem_memory_iff (hm : ∀ e ∈ c.memory, ∃ bytes, e.bytes.read = .ok bytes) :
    x ∈ c.memory.filterMap (·.check m) ↔ ∃ e ∈ c.memory, ∃ bytes, e.bytes.read = .ok bytes ∧
      m.memory.dump e.address bytes.length ≠ bytes ∧
      x = .memory e.address bytes (m.memory.dump e.address bytes.length) := by
  rw [List.mem_filterMap]
  have hcheck (e : MemoryExpectation) {bytes : List UInt8} (hb : e.bytes.read = .ok bytes) :
      e.check m = if m.memory.dump e.address bytes.length = bytes then none
        else some (.memory e.address bytes (m.memory.dump e.address bytes.length)) := by
    unfold MemoryExpectation.check
    rw [hb]
    rfl
  constructor
  · rintro ⟨e, he, hx⟩
    obtain ⟨bytes, hb⟩ := hm e he
    rw [hcheck e hb] at hx
    split_ifs at hx with hne
    cases hx
    exact ⟨e, he, bytes, hb, hne, rfl⟩
  · rintro ⟨e, he, bytes, hb, hne, rfl⟩
    exact ⟨e, he, by rw [hcheck e hb, if_neg hne]⟩

theorem mem_flags_iff :
    x ∈ (if m.flags.agrees c.flags then [] else [Mismatch.flags c.flags m.flags]) ↔
      m.flags.differs c.flags = true ∧ x = .flags c.flags m.flags := by
  rw [Flags.agrees_eq]
  cases m.flags.differs c.flags <;> simp

theorem length_registers (c : Checkpoint) (m : Machine) :
    ((c.registers.filterMap RegisterExpectation.ofEntry?).filterMap (·.check m)).length =
      c.registers.countP (registerDiffers m) := by
  rw [List.filterMap_filterMap, List.length_filterMap_eq_countP]
  refine congrArg (List.countP · c.registers) (funext fun e => ?_)
  unfold RegisterExpectation.ofEntry? registerDiffers
  cases Register.ofName? e.1 with
  | none => rfl
  | some r =>
    simp only [RegisterExpectation.check, Option.map_some, Option.bind_some, Option.any_some]
    split_ifs with h <;> simp [h]

theorem length_memory (hm : ∀ e ∈ c.memory, ∃ bytes, e.bytes.read = .ok bytes) :
    (c.memory.filterMap (·.check m)).length = c.memory.countP (memoryDiffers m) := by
  rw [List.length_filterMap_eq_countP]
  refine List.countP_congr fun e he => ?_
  obtain ⟨bytes, hb⟩ := hm e he
  unfold MemoryExpectation.check memoryDiffers
  rw [hb]
  simp only [Except.toOption, Option.getD_some, Option.any_some]
  split_ifs with h <;> simp [h]

theorem compare_compared (hm : ∀ e ∈ c.memory, ∃ bytes, e.bytes.read = .ok bytes) (m : Machine) :
    c.Compared m (compare ⟨c, c.registers.filterMap RegisterExpectation.ofEntry?⟩ m) := by
  have hmem (x : Mismatch) :
      x ∈ compare ⟨c, c.registers.filterMap RegisterExpectation.ofEntry?⟩ m ↔ _ :=
    (List.mem_append.trans (or_congr (List.mem_append.trans (or_congr mem_registers_iff
      (mem_memory_iff hm))) mem_flags_iff))
  constructor
  · intro name expected actual
    rw [hmem]
    constructor
    · rintro ((⟨e, he, r, hr, hne, hx⟩ | ⟨e, he, bytes, hb, hne, hx⟩) | ⟨hd, hx⟩)
      · cases hx
        exact ⟨e, he, r, hr, rfl, rfl, rfl, hne⟩
      · cases hx
      · cases hx
    · rintro ⟨e, he, r, hr, rfl, rfl, rfl, hne⟩
      exact .inl (.inl ⟨e, he, r, hr, hne, rfl⟩)
  · intro address expected actual
    rw [hmem]
    constructor
    · rintro ((⟨e, he, r, hr, hne, hx⟩ | ⟨e, he, bytes, hb, hne, hx⟩) | ⟨hd, hx⟩)
      · cases hx
      · cases hx
        exact ⟨e, he, hb, rfl, rfl, hne⟩
      · cases hx
    · rintro ⟨e, he, hb, rfl, rfl, hne⟩
      exact .inl (.inr ⟨e, he, expected, hb, hne, rfl⟩)
  · intro expected actual
    rw [hmem]
    constructor
    · rintro ((⟨e, he, r, hr, hne, hx⟩ | ⟨e, he, bytes, hb, hne, hx⟩) | ⟨hd, hx⟩)
      · cases hx
      · cases hx
      · cases hx
        exact ⟨hd, rfl, rfl⟩
    · rintro ⟨hd, rfl, rfl⟩
      exact .inr ⟨hd, rfl⟩
  · intro stop h
    rw [hmem] at h
    rcases h with (⟨e, he, r, hr, hne, hx⟩ | ⟨e, he, bytes, hb, hne, hx⟩) | ⟨hd, hx⟩ <;> cases hx
  · unfold compare
    rw [List.length_append, List.length_append, length_registers, length_memory hm,
      Flags.agrees_eq]
    cases m.flags.differs c.flags <;> rfl

end Target

namespace Testcase

variable {t : Testcase} {limit : Nat}

def targetOf (c : Checkpoint) : Target :=
  ⟨c, c.registers.filterMap RegisterExpectation.ofEntry?⟩

theorem ofCheckpoints_eq {checkpoints : List Checkpoint}
    (h : ∀ c ∈ checkpoints, ∀ e ∈ c.registers, (Register.ofName? e.1).isSome = true) :
    Target.ofCheckpoints checkpoints = .ok (checkpoints.map targetOf) := by
  induction checkpoints with
  | nil => rfl
  | cons c rest ih =>
    have hc := RegisterExpectation.ofNamed_eq (h c (by simp))
    have hrest := ih fun c' hc' => h c' (List.mem_cons_of_mem c hc')
    unfold Target.ofCheckpoints
    rw [hc, hrest]
    rfl

theorem read_of_checkMemory {es : List MemoryExpectation} (h : checkMemory es = .ok ()) :
    ∀ e ∈ es, ∃ bytes, e.bytes.read = .ok bytes := by
  induction es with
  | nil => simp
  | cons e rest ih =>
    obtain ⟨bytes, hb, h⟩ := ok_of_bind h
    intro e' he'
    obtain rfl | he' := List.mem_cons.1 he'
    · exact ⟨bytes, hb⟩
    · exact ih h e' he'

theorem read_of_checkCheckpoints {cs : List Checkpoint} (h : checkCheckpoints cs = .ok ()) :
    ∀ c ∈ cs, ∀ e ∈ c.memory, ∃ bytes, e.bytes.read = .ok bytes := by
  induction cs with
  | nil => simp
  | cons c rest ih =>
    obtain ⟨⟨⟩, hc, h⟩ := ok_of_bind h
    intro c' hc'
    obtain rfl | hc' := List.mem_cons.1 hc'
    · exact read_of_checkMemory hc
    · exact ih h c' hc'

/-- What a valid testcase has: code, and memory expectations that can be read. -/
theorem read_of_validate (h : t.validate = .ok ()) : ∃ code, t.code.read = .ok code ∧
    ∀ c ∈ t.checkpoints, ∀ e ∈ c.memory, ∃ bytes, e.bytes.read = .ok bytes := by
  obtain ⟨code, hcode, h⟩ := ok_of_bind h
  split_ifs at h
  exact ⟨code, hcode, read_of_checkCheckpoints h⟩

/-- The first machine is the fresh one with a breakpoint at every checkpoint. -/
theorem machine_eq (t : Testcase) (code : List UInt8) : ∃ breakpoints,
    t.machine code = (Machine.ofCode code).withBreakpoints breakpoints ∧
      ∀ c ∈ t.checkpoints, breakpoints.contains c.address = true := by
  have hfold (m : Machine) (cs : List Checkpoint) :
      ∃ breakpoints, cs.foldl (fun m c => m.setBreakpoint c.address) m =
          m.withBreakpoints breakpoints ∧
        ∀ a, breakpoints.contains a = true ↔ m.breakpoints.contains a = true ∨
          ∃ c ∈ cs, c.address = a := by
    induction cs generalizing m with
    | nil => exact ⟨m.breakpoints, rfl, by simp⟩
    | cons c rest ih =>
      obtain ⟨breakpoints, hb, hcontains⟩ := ih (m.setBreakpoint c.address)
      refine ⟨breakpoints, hb, fun a => ?_⟩
      rw [hcontains]
      simp [Machine.setBreakpoint, or_assoc, or_left_comm]
  obtain ⟨breakpoints, hb, hcontains⟩ := hfold (.ofCode code) t.checkpoints
  exact ⟨breakpoints, hb, fun c hc => (hcontains _).2 (.inr ⟨c, hc, rfl⟩)⟩

/-- The report tells of the checkpoints what the trace of `m` shows. -/
structure Reports (t : Testcase) (limit : Nat) (m : Machine) (report : TestReport) : Prop where
  name : report.name = t.name
  addresses : report.checkpoints.map CheckpointResult.address =
    t.checkpoints.map Checkpoint.address
  reached : ∀ (k : Nat) r, report.checkpoints[k]? = some r → (r.reached = true ↔
    ∃ i, Visits m limit 0 ((t.checkpoints.take (k + 1)).map Checkpoint.address) i)
  compared : ∀ (k : Nat) r c i, report.checkpoints[k]? = some r → t.checkpoints[k]? = some c →
    Visits m limit 0 ((t.checkpoints.take (k + 1)).map Checkpoint.address) i →
    c.Compared (m.after .execute i) r.mismatches
  missed : (∃ r ∈ report.checkpoints, r.reached = false) →
    ∃ stop, m.Stuck limit report.executed stop ∧
      ∀ r ∈ report.checkpoints, r.reached = false → r.mismatches = [.notReached stop]
  executed : report.executed ≤ limit

theorem run_reports (limit : Nat) (t : Testcase) (hv : t.validate = .ok ())
    (hr : ∀ c ∈ t.checkpoints, ∀ e ∈ c.registers, (Register.ofName? e.1).isSome = true) :
    ∃ code report, t.code.read = .ok code ∧ t.run limit = .ok report ∧
      t.Reports limit (.ofCode code) report := by
  obtain ⟨code, hcode, hm⟩ := read_of_validate hv
  obtain ⟨breakpoints, hmachine, hb⟩ := t.machine_eq code
  have hprepare : t.prepare = .ok (t.machine code, t.checkpoints.map targetOf) := by
    unfold prepare
    rw [hv, hcode, ofCheckpoints_eq hr]
    rfl
  have hcontains : ∀ u ∈ t.checkpoints.map targetOf, breakpoints.contains u.address = true := by
    intro u hu
    obtain ⟨c, hc, rfl⟩ := List.mem_map.1 hu
    exact hb c hc
  have houtcomes : Outcomes (.ofCode code) limit 0 (t.checkpoints.map targetOf) _ _ :=
    visit_outcomes (fun _ () => ()) (t.checkpoints.map targetOf) hcontains
      ⟨t.machine code, 0, ()⟩ (Nat.zero_le _) (by nofun) hmachine
  have haddresses (cs : List Checkpoint) :
      (cs.map targetOf).map Target.address = cs.map Checkpoint.address := List.map_map
  have htake (k : Nat) : ((t.checkpoints.map targetOf).take (k + 1)).map Target.address =
      (t.checkpoints.take (k + 1)).map Checkpoint.address := by
    rw [← List.map_take, haddresses]
  have hrun : t.run limit = .ok (report (fun _ () => ()) limit t.name (t.machine code)
      (t.checkpoints.map targetOf) ()).1 := by
    unfold run
    rw [hprepare]
    rfl
  refine ⟨code, _, hcode, hrun, ?_⟩
  refine
    { name := rfl
      addresses := houtcomes.addresses.trans (haddresses _)
      reached := fun k r hr => ?_
      compared := fun k r c i hr hc hv => ?_
      missed := houtcomes.missed_stop
      executed := houtcomes.le (Nat.zero_le _) }
  · rw [← htake]
    exact houtcomes.reached_iff hr
  · rw [← htake] at hv
    have ht : (t.checkpoints.map targetOf)[k]? = some (targetOf c) := by
      rw [List.getElem?_map, hc]
      rfl
    rw [houtcomes.compared hr ht hv]
    exact Target.compare_compared (hm c (List.mem_of_getElem? hc)) _

/-- Straight code with a checkpoint that is not met in full, and one that lies behind. -/
def straightCase : Testcase where
  name := "straight"
  code := .bytes [0xB8, 0x05, 0x00, 0x00, 0x00, 0x90]
  checkpoints :=
    [⟨0x1005, [("EAX", 6)], [⟨0x1000, .bytes [0xB8]⟩], { carry := some false }⟩,
      ⟨0x1000, [], [], .undefined⟩]

theorem straightCase_reports : straightCase.validate = .ok () ∧
    (∀ c ∈ straightCase.checkpoints, ∀ e ∈ c.registers,
      (Register.ofName? e.1).isSome = true) ∧
    ∃ report, straightCase.run 10 = .ok report ∧
      report.checkpoints = [⟨0x1005, true, [.register "EAX" 6 5]⟩,
        ⟨0x1000, false, [.notReached .endOfCode]⟩] ∧ report.executed = 2 ∧
      straightCase.Reports 10 (.ofCode [0xB8, 0x05, 0x00, 0x00, 0x00, 0x90]) report := by
  have hv : straightCase.validate = .ok () := rfl
  have hr : ∀ c ∈ straightCase.checkpoints, ∀ e ∈ c.registers,
      (Register.ofName? e.1).isSome = true := by decide +kernel
  obtain ⟨code, report, hcode, hrun, h⟩ := run_reports 10 straightCase hv hr
  cases hcode
  have hreport : (straightCase.run 10).toOption = some ⟨"straight",
      [⟨0x1005, true, [.register "EAX" 6 5]⟩, ⟨0x1000, false, [.notReached .endOfCode]⟩], 2⟩ := by
    decide +kernel
  rw [hrun] at hreport
  cases hreport
  exact ⟨hv, hr, _, hrun, rfl, rfl, h⟩

end Testcase

end LongMode

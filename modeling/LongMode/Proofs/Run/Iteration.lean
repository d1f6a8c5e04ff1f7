import LongMode.Proofs.Run.Step
/-!
A run with a budget is an iteration of single steps. `Follows` says what a run has recorded after a
number of them, and `Ends` which of the four reasons stops it there: they are looked for in the
order of the budget, a breakpoint, the end of the program, a fault.
-/

namespace LongMode

theorem Progress.after_eq (p : Progress) (one : Step) : p.after one =
    { lines := (after {} one).lines ++ p.lines
      executed := p.executed + (after {} one).executed
      invalidOpcode := p.invalidOpcode.or (after {} one).invalidOpcode
      modifiers := one.modifiers } := by
  unfold after
  cases one.event <;> simp

theorem Progress.after_completed {one : Step} (h : one.event.stop = .step) :
    (after {} one).executed = 1 := by
  unfold after
  cases he : one.event with
  | halted e => rw [he] at h; exact absurd h (StopReason.ofHalt_ne_step e)
  | _ => rfl

theorem Progress.after_halted {one : Step} (h : one.event.stop ≠ .step) (p : Progress) :
    (p.after one).lines = p.lines ∧ (p.after one).executed = p.executed ∧
      (p.after one).invalidOpcode = p.invalidOpcode := by
  unfold after
  cases he : one.event with
  | halted e => exact ⟨rfl, rfl, rfl⟩
  | _ => rw [he] at h; exact absurd rfl h

namespace Machine

def after (s : Settings) (n : Nat) (m : Machine) : Machine :=
  (fun m => (m.run s true).machine)^[n] m

@[simp] theorem after_zero (s : Settings) (m : Machine) : m.after s 0 = m := rfl

theorem after_succ (s : Settings) (n : Nat) (m : Machine) :
    m.after s (n + 1) = (m.run s true).machine.after s n := Function.iterate_succ_apply _ _ _

theorem after_succ' (s : Settings) (n : Nat) (m : Machine) :
    m.after s (n + 1) = ((m.after s n).run s true).machine := Function.iterate_succ_apply' _ _ _

def pauses (s : Settings) (m : Machine) : Bool := !s.noBreak && m.isBreakpoint m.ip

/-- The opcode without an instruction that an execution from here passes over. -/
def unknownOpcode (s : Settings) (m : Machine) : Option Fault :=
  match m.locate with
  | .ok l =>
    if s.disassemble || l.instruction.isSome then none else some (.invalidOpcode m.ip l.opcode)
  | .error _ => none

theorem step_invalidOpcode (s : Settings) (m : Machine) :
    (Progress.after {} (m.step s)).invalidOpcode = m.unknownOpcode s := by
  unfold unknownOpcode Progress.after
  cases hl : m.locate with
  | error h => rw [(step_of_error (s := s) hl).1]
  | ok l =>
    cases hd : s.disassemble with
    | true => rw [step_listing hl hd]; rfl
    | false =>
      cases hi : l.instruction with
      | none => simp [step_unknown hl hd hi, hi]
      | some i =>
        rw [step_execute hl hd hi]
        cases i.execute (frameOf s l) { m with ip := l.next } <;> simp [hi]

/-- The run that started at `m` with the record `p` has completed `k` steps and recorded `q`. -/
structure Follows (s : Settings) (m : Machine) (p : Progress) (k : Nat) (q : Progress) : Prop where
  completed : ∀ i < k, ((m.after s i).run s true).stop = .step
  passed : ∀ i < k, 1 ≤ i → (m.after s i).pauses s = false
  executed : q.executed = p.executed + k
  invalidOpcode : q.invalidOpcode = p.invalidOpcode.or
    ((List.range k).findSome? fun i => (m.after s i).unknownOpcode s)
  lines : q.lines.reverse = p.lines.reverse ++
    (List.range k).flatMap fun i => ((m.after s i).run s true).status.lines

/-- Why a run that has completed `k` of `limit` steps and is at `m` ends there, and with what. -/
inductive Ends (s : Settings) (limit k : Nat) (m : Machine) : StopReason → Machine → Prop where
  | spent (h : k = limit) : Ends s limit k m .step m
  | paused (h : k < limit) (hk : 1 ≤ k) (hp : m.pauses s = true) :
    Ends s limit k m (.breakpoint m.ip) m
  | outside (h : k < limit) (hp : ¬ (1 ≤ k ∧ m.pauses s = true)) (hc : m.inCode = false) :
    Ends s limit k m .endOfCode m
  | faulted (h : k < limit) (hp : ¬ (1 ≤ k ∧ m.pauses s = true)) {f : Fault}
    (hf : (m.run s true).stop = .fault f) : Ends s limit k m (.fault f) (m.run s true).machine

variable {s : Settings} {m : Machine} {p q : Progress} {k limit : Nat}

theorem Follows.zero (hl : q.lines = p.lines) (he : q.executed = p.executed)
    (hi : q.invalidOpcode = p.invalidOpcode) : Follows s m p 0 q where
  completed := by simp
  passed := by simp
  executed := he
  invalidOpcode := by simp [hi]
  lines := by simp [hl]

theorem Follows.succ (hc : m.inCode = true) (hstop : (m.step s).event.stop = .step)
    (hp : 1 ≤ k → (m.step s).machine.pauses s = false)
    (h : Follows s (m.step s).machine (p.after (m.step s)) k q) : Follows s m p (k + 1) q := by
  have hm : (m.run s true).machine = (m.step s).machine := run_single_machine hc
  have hq : (m.run s true).progress = Progress.after {} (m.step s) := by
    rw [run_single, if_pos hc]
  have hshift (i : Nat) : m.after s (i + 1) = (m.step s).machine.after s i := by
    rw [after_succ, hm]
  have heq := Progress.after_eq p (m.step s)
  refine ⟨?_, ?_, ?_, ?_, ?_⟩
  · rintro (_ | i) hi
    · exact (run_single_stop hc).trans hstop
    · rw [hshift]
      exact h.completed i (by omega)
  · rintro (_ | _ | i) hi h1
    · cases h1
    · rw [hshift]
      exact hp (by omega)
    · rw [hshift]
      exact h.passed (i + 1) (by omega) (by omega)
  · rw [h.executed, heq, Progress.after_completed hstop]
    dsimp only
    omega
  · rw [h.invalidOpcode, heq, List.range_succ_eq_map, List.findSome?_cons, List.findSome?_map]
    simp only [Function.comp_def, Nat.succ_eq_add_one, hshift, after_zero, step_invalidOpcode,
      Option.or_assoc]
    cases m.unknownOpcode s <;> rfl
  · rw [h.lines, heq, List.range_succ_eq_map, List.flatMap_cons, List.flatMap_map]
    simp only [Nat.succ_eq_add_one, hshift, after_zero, Run.status, hq, List.reverse_append,
      List.append_assoc]

theorem Ends.succ {stop : StopReason} {n : Machine} (hp : k = 0 → m.pauses s = false)
    (h : Ends s limit k m stop n) : Ends s (limit + 1) (k + 1) m stop n := by
  have hk {x : Nat} (hx : ¬ (1 ≤ x ∧ m.pauses s = true)) (hxk : x = k) :
      ¬ (1 ≤ k + 1 ∧ m.pauses s = true) := by
    subst hxk
    rintro ⟨-, h⟩
    rcases Nat.eq_zero_or_pos x with h0 | h1
    · rw [hp h0] at h
      cases h
    · exact hx ⟨h1, h⟩
  cases h with
  | spent h => exact .spent (by omega)
  | paused h h1 hpause => exact .paused (by omega) (by omega) hpause
  | outside h hn hc => exact .outside (by omega) (hk hn rfl) hc
  | faulted h hn hf => exact .faulted (by omega) (hk hn rfl) hf

/-! What the reason of an end tells. -/

namespace Ends

variable {stop : StopReason} {n : Machine}

theorem count (h : Ends s limit k m stop n) : k ≤ limit := by
  cases h <;> omega

theorem spent_iff (h : Ends s limit k m stop n) : stop = .step ↔ k = limit := by
  cases h with
  | spent h => exact ⟨fun _ => h, fun _ => rfl⟩
  | paused h | outside h | faulted h => exact ⟨nofun, fun heq => absurd heq h.ne⟩

theorem outside_iff (h : Ends s limit k m stop n) : stop = .endOfCode ↔
    k < limit ∧ m.inCode = false ∧ ¬ (1 ≤ k ∧ m.pauses s = true) := by
  cases h with
  | spent h => exact ⟨nofun, fun ⟨hlt, _⟩ => absurd hlt h.not_lt⟩
  | paused h h1 hp => exact ⟨nofun, fun ⟨_, _, hn⟩ => absurd ⟨h1, hp⟩ hn⟩
  | outside h hp hc => exact ⟨fun _ => ⟨h, hc, hp⟩, fun _ => rfl⟩
  | faulted h hp hf =>
    have hc := inCode_of_fault hf
    exact ⟨nofun, fun ⟨_, hc', _⟩ => absurd (hc'.symm.trans hc) (by decide)⟩

theorem of_breakpoint {a : UInt64} (h : Ends s limit k m (.breakpoint a) n) :
    a = m.ip ∧ n = m ∧ 1 ≤ k ∧ k < limit ∧ m.pauses s = true := by
  cases h with
  | paused h h1 hp => exact ⟨rfl, rfl, h1, h, hp⟩

theorem of_fault {f : Fault} (h : Ends s limit k m (.fault f) n) :
    (m.run s true).stop = .fault f ∧ n = (m.run s true).machine := by
  cases h with
  | faulted h hp hf => exact ⟨hf, rfl⟩

theorem settled (h : Ends s limit k m stop n) (hn : ∀ f, stop ≠ .fault f) : n = m := by
  cases h with
  | @faulted h hp f hf => exact absurd rfl (hn f)
  | _ => rfl

theorem served (h : Ends s limit k m stop n) (u : Misuse) : stop ≠ .misuse u := by
  cases h <;> nofun

end Ends

/-- What a run does that has budget left and does not end at once. -/
theorem runOn_succ (s : Settings) (budget : Nat) (m : Machine) (p : Progress) :
    runOn s (budget + 1) m p =
      if m.inCode then
        if (m.step s).event.stop ≠ .step then
          ⟨(m.step s).machine, (m.step s).event.stop, p.after (m.step s)⟩
        else if budget = 0 then ⟨(m.step s).machine, .step, p.after (m.step s)⟩
        else if (m.step s).machine.pauses s then
          ⟨(m.step s).machine, .breakpoint (m.step s).machine.ip, p.after (m.step s)⟩
        else runOn s budget (m.step s).machine (p.after (m.step s))
      else ⟨m, .endOfCode, p⟩ := by
  conv_lhs => unfold runOn
  by_cases hc : m.inCode = true
  · rw [if_pos hc, if_pos hc]
    dsimp only
    cases he : (m.step s).event with
    | halted h => exact (if_pos (StopReason.ofHalt_ne_step h)).symm
    | _ => exact (if_neg (not_not.2 rfl)).symm
  · rw [if_neg hc, if_neg hc]

theorem runOn_iterates (s : Settings) (budget : Nat) (hb : 1 ≤ budget) (m : Machine)
    (p : Progress) : ∃ k, Follows s m p k (runOn s budget m p).progress ∧
      Ends s budget k (m.after s k) (runOn s budget m p).stop (runOn s budget m p).machine := by
  induction budget generalizing m p with
  | zero => omega
  | succ budget ih =>
    rw [runOn_succ]
    by_cases hc : m.inCode = true
    · rw [if_pos hc]
      have hm : (m.run s true).machine = (m.step s).machine := run_single_machine hc
      by_cases hs : (m.step s).event.stop = .step
      · rw [if_neg (not_not.2 hs)]
        have hone : Follows s m p 1 (p.after (m.step s)) :=
          .succ hc hs (by omega) (.zero rfl rfl rfl)
        have hat : m.after s 1 = (m.step s).machine := hm
        by_cases h0 : budget = 0
        · rw [if_pos h0]
          refine ⟨1, hone, ?_⟩
          rw [hat]
          exact .spent (by omega)
        · rw [if_neg h0]
          by_cases hp : (m.step s).machine.pauses s = true
          · rw [if_pos hp]
            refine ⟨1, hone, ?_⟩
            rw [hat]
            exact .paused (by omega) le_rfl hp
          · rw [if_neg hp]
            have hp : (m.step s).machine.pauses s = false := by simpa using hp
            obtain ⟨k, hf, he⟩ := ih (by omega) (m.step s).machine (p.after (m.step s))
            refine ⟨k + 1, hf.succ hc hs fun _ => hp, ?_⟩
            rw [after_succ, hm]
            exact he.succ fun hk => by rw [hk]; exact hp
      · rw [if_pos hs]
        obtain ⟨hl, he, hi⟩ := Progress.after_halted hs p
        refine ⟨0, .zero hl he hi, ?_⟩
        cases hev : (m.step s).event with
        | halted h =>
          obtain ⟨f, rfl⟩ := step_onlyFaults hev
          have hf : (m.run s true).stop = .fault f := by rw [run_single_stop hc, hev]; rfl
          rw [← hm]
          exact .faulted (by omega) (by omega) hf
        | _ => rw [hev] at hs; exact absurd rfl hs
    · rw [if_neg hc]
      exact ⟨0, .zero rfl rfl rfl, .outside (by omega) (by omega) (by simpa using hc)⟩

theorem run_fault_ip {f : Fault} (hf : (m.run s true).stop = .fault f) :
    (m.run s true).machine.ip = m.ip := by
  have hc := inCode_of_fault hf
  rw [run_single_machine hc]
  rw [run_single_stop hc, Event.stop_eq_fault] at hf
  obtain ⟨-, hm⟩ | ⟨l, i, n, -, -, -, hm⟩ := step_halted hf
  · rw [hm]
  · rw [hm]

/-- What is told of a run whose first step faults. -/
theorem run_fault_status {f : Fault} (hf : (m.run s true).stop = .fault f) :
    (m.run s true).status = ⟨[], m.ip, .fault f, 0, none⟩ := by
  have hc := inCode_of_fault hf
  have hstop : (m.step s).event.stop ≠ .step := by
    rw [← run_single_stop hc, hf]
    nofun
  obtain ⟨hlines, hexecuted, hinvalid⟩ := Progress.after_halted hstop {}
  have hrun : (m.run s true).progress = Progress.after {} (m.step s) := by
    rw [run_single, if_pos hc]
  unfold Run.status
  rw [hrun, hlines, hexecuted, hinvalid, hf, run_fault_ip hf]
  rfl

theorem executed_of_halted (h : (m.run s true).stop ≠ .step) :
    (m.run s true).status.executed = 0 := by
  by_cases hc : m.inCode = true
  · rw [run_single_stop hc] at h
    rw [run_single, if_pos hc]
    exact (Progress.after_halted h {}).2.1
  · rw [run_single_outside (by simpa using hc)]
    rfl

theorem executed_of_completed (h : (m.run s true).stop = .step) :
    (m.run s true).status.executed = 1 := by
  have hc : m.inCode = true := inCode_of_stop (by rw [h]; nofun)
  rw [run_single_stop hc] at h
  rw [run_single, if_pos hc]
  exact Progress.after_completed h

/-- The run `r` of `m` is made of at most `limit` single steps and tells truly why it ended. -/
structure Iterates (s : Settings) (m : Machine) (limit : Nat) (r : Run) : Prop where
  count : r.status.executed ≤ limit
  completed : ∀ i < r.status.executed, ((m.after s i).run s true).stop = .step
  settled : (∀ f, r.status.stop ≠ .fault f) → r.machine = m.after s r.status.executed
  faulted : ∀ f, r.status.stop = .fault f →
    ((m.after s r.status.executed).run s true).stop = .fault f ∧
    r.machine = m.after s (r.status.executed + 1) ∧ r.status.ip = (m.after s r.status.executed).ip
  spent : r.status.stop = .step ↔ r.status.executed = limit
  outside : r.status.stop = .endOfCode ↔ r.status.executed < limit ∧
    (m.after s r.status.executed).inCode = false ∧
    ¬ (1 ≤ r.status.executed ∧ (m.after s r.status.executed).pauses s = true)
  paused : ∀ a, r.status.stop = .breakpoint a → a = r.status.ip ∧ r.machine.isBreakpoint a = true ∧
    s.noBreak = false ∧ 1 ≤ r.status.executed ∧ r.status.executed < limit
  passed : s.noBreak = false → ∀ i, 1 ≤ i → i < r.status.executed →
    (m.after s i).isBreakpoint (m.after s i).ip = false
  served : ∀ u, r.status.stop ≠ .misuse u
  invalidOpcode : r.status.invalidOpcode =
    (List.range r.status.executed).findSome? fun i => (m.after s i).unknownOpcode s
  lines : r.status.lines =
    (List.range r.status.executed).flatMap fun i => ((m.after s i).run s true).status.lines

theorem runFor_iterates (s : Settings) (m : Machine) (limit : Nat) (hl : 1 ≤ limit) :
    Iterates s m limit (m.runFor s limit) := by
  have hrun : m.runFor s limit = runOn s limit m {} := by
    unfold runFor
    rw [Nat.max_eq_left hl]
  obtain ⟨k, hf, he⟩ := runOn_iterates s limit hl m {}
  rw [← hrun] at hf he
  generalize m.runFor s limit = r at hf he
  have hk : r.status.executed = k := hf.executed.trans (Nat.zero_add k)
  subst hk
  refine
    { count := he.count
      completed := hf.completed
      settled := he.settled
      faulted := fun f hstop => ?_
      spent := he.spent_iff
      outside := he.outside_iff
      paused := fun a hstop => ?_
      passed := fun hs i h1 hi => ?_
      served := he.served
      invalidOpcode := hf.invalidOpcode.trans Option.none_or
      lines := hf.lines }
  · change r.stop = .fault f at hstop
    rw [hstop] at he
    obtain ⟨hf, hm⟩ := he.of_fault
    exact ⟨hf, hm.trans (after_succ' s _ m).symm, (congrArg (·.ip) hm).trans (run_fault_ip hf)⟩
  · change r.stop = .breakpoint a at hstop
    rw [hstop] at he
    obtain ⟨rfl, hm, h1, hlt, hp⟩ := he.of_breakpoint
    rw [pauses, Bool.and_eq_true, Bool.not_eq_true'] at hp
    rw [hm]
    exact ⟨(congrArg (·.ip) hm).symm, hp.2, hp.1, h1, hlt⟩
  · simpa [pauses, hs] using hf.passed i hi h1

/-- A loop of two instructions, with a breakpoint at its head. -/
def markedLoop : Machine := (ofCode [0x90, 0xEB, 0xFD]).setBreakpoint 0x1000

theorem markedLoop_iterates :
    Iterates .execute markedLoop 5 (markedLoop.runFor .execute 5) ∧
    (markedLoop.runFor .execute 5).status.stop = .breakpoint 0x1000 ∧
    (markedLoop.runFor .execute 5).status.executed = 2 :=
  ⟨runFor_iterates _ _ 5 (by decide), by rfl, by rfl⟩

end Machine

end LongMode

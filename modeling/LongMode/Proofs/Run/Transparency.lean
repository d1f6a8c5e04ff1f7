import LongMode.Proofs.Run.Breakpoints
/-!
Breakpoints are transparent. A run without a budget that is begun again each time a breakpoint stops
it comes to the end of the run that passes over breakpoints, has told the same on the way, and was
stopped at just those of its addresses that are breakpoints. The proof goes along the instructions of
the undivided run: one more in front either lengthens the first part or is a part of its own.
-/

namespace LongMode

def Settings.passing (s : Settings) : Settings := { s with noBreak := true }

namespace Machine

variable {s : Settings} {m : Machine} {limit more : Nat} {paused : List Run} {whole final : Run}

/-- A step does not look at whether breakpoints are passed over. -/
theorem run_passing (s : Settings) (m : Machine) : m.run s.passing true = m.run s true := by
  rw [run_single, run_single]
  rfl

theorem run_breakpoints (s : Settings) (m : Machine) :
    (m.run s true).machine.breakpoints = m.breakpoints := by
  by_cases hc : m.inCode = true
  · obtain ⟨hm, -⟩ | ⟨e, he, -⟩ := step_unnoticed (withBreakpoints_unnoticed m.breakpoints) (m := m)
      (s := s) (.same rfl) fun _ _ => rfl
    · rw [run_single_machine hc]
      exact congrArg (·.breakpoints) hm
    · exact he.elim
  · rw [run_single_outside (by simpa using hc)]

theorem run_ne_breakpoint (s : Settings) (m : Machine) (a : UInt64) :
    (m.run s true).stop ≠ .breakpoint a := by
  rw [run_single]
  split_ifs
  · cases (m.step s).event with
    | halted h => cases h <;> nofun
    | _ => nofun
  · nofun

/-! A budget that is not spent does not matter. -/

theorem executed_le_runOn (s : Settings) (budget : Nat) (m : Machine) (p : Progress) :
    p.executed ≤ (runOn s budget m p).progress.executed := by
  have h : (runOn s budget m p).progress.executed = _ :=
    congrArg Status.executed (runOn_record s budget m p).2
  rw [h]
  exact Nat.le_add_right _ _

theorem runOn_spare {budget : Nat} {p : Progress} (hstop : (runOn s budget m p).stop ≠ .step)
    (hmore : (runOn s budget m p).progress.executed < p.executed + more) :
    runOn s more m p = runOn s budget m p := by
  induction budget generalizing m p more with
  | zero => exact absurd rfl hstop
  | succ budget ih =>
    have hle := executed_le_runOn s (budget + 1) m p
    obtain ⟨more, rfl⟩ : ∃ n, more = n + 1 := ⟨more - 1, by omega⟩
    rw [runOn_succ] at hstop hmore
    rw [runOn_succ, runOn_succ]
    by_cases hc : m.inCode = true
    · rw [if_pos hc] at hstop hmore ⊢
      rw [if_pos hc]
      by_cases he : (m.step s).event.stop ≠ .step
      · rw [if_pos he, if_pos he]
      · rw [if_neg he] at hstop hmore ⊢
        rw [if_neg he]
        have hone : (p.after (m.step s)).executed = p.executed + 1 := by
          rw [Progress.after_eq, Progress.after_completed (not_not.1 he)]
        by_cases h0 : budget = 0
        · rw [if_pos h0] at hstop
          exact absurd rfl hstop
        · rw [if_neg h0] at hstop hmore ⊢
          by_cases hp : (m.step s).machine.pauses s = true
          · rw [if_pos hp] at hmore ⊢
            dsimp only at hmore
            rw [if_neg (by omega), if_pos hp]
          · rw [if_neg hp] at hstop hmore ⊢
            have hrest := executed_le_runOn s budget (m.step s).machine (p.after (m.step s))
            rw [if_neg (by omega), if_neg hp]
            exact ih hstop (by omega)
    · rw [if_neg hc, if_neg hc]

theorem runFor_spare (hstop : (m.runFor s limit).stop ≠ .step)
    (hmore : (m.runFor s limit).status.executed < more) : m.runFor s more = m.runFor s limit := by
  unfold runFor at hstop hmore ⊢
  rw [Nat.max_eq_left (by omega)]
  exact runOn_spare hstop (by rwa [Nat.zero_add])

theorem executed_lt_of_stop (hl : 1 ≤ limit) (hstop : (m.runFor s limit).stop ≠ .step) :
    (m.runFor s limit).status.executed < limit := by
  obtain ⟨k, hfollows, hends⟩ := runOn_iterates s (max limit 1) (by omega) m {}
  have hexecuted : (m.runFor s limit).status.executed = k :=
    hfollows.executed.trans (Nat.zero_add k)
  have hne : k ≠ max limit 1 := fun h => hstop (hends.spent_iff.2 h)
  have hle := hends.count
  omega

/-! Runs that breakpoints cut. -/

/-- The runs of `m` without a budget, each from where a breakpoint stopped the one before it, up to
the first one that no breakpoint stops. -/
inductive Stages (s : Settings) : Machine → List Run → Run → Prop
  | last {m : Machine} (h : ∀ a, (m.run s false).stop ≠ .breakpoint a) :
    Stages s m [] (m.run s false)
  | stopped {m : Machine} {a : UInt64} {paused : List Run} {final : Run}
    (h : (m.run s false).stop = .breakpoint a)
    (rest : Stages s (m.run s false).machine paused final) :
    Stages s m (m.run s false :: paused) final

/-- What a caller has been told when the last of the runs has ended. -/
def joined (paused : List Run) (final : Run) : Status :=
  paused.foldr (fun r rest => r.status.followedBy rest) final.status

/-- The breakpoints that the instruction pointer comes to in the first `k` steps, in order. -/
def marked (s : Settings) (m : Machine) (k : Nat) : List UInt64 :=
  ((List.range k).map fun i => (m.after s (i + 1)).ip).filter m.isBreakpoint

/-- The run `whole` of `m`, cut at the breakpoints that it passes over. -/
structure Cut (s : Settings) (m : Machine) (whole : Run) (paused : List Run) (final : Run) :
    Prop where
  stages : Stages s m paused final
  machine : final.machine = whole.machine
  status : joined paused final = whole.status
  stops : paused.map (·.stop) =
    (marked s.passing m whole.status.executed).map .breakpoint

theorem marked_succ (hs : s.noBreak = false) (m : Machine) (k : Nat) :
    marked s.passing m (k + 1) =
      if (m.run s true).machine.pauses s then
        (m.run s true).machine.ip :: marked s.passing (m.run s true).machine k
      else marked s.passing (m.run s true).machine k := by
  have hsame : (m.run s true).machine.isBreakpoint = m.isBreakpoint := by
    unfold isBreakpoint
    rw [run_breakpoints]
  unfold marked pauses
  rw [List.range_succ_eq_map, List.map_cons, List.filter_cons, List.map_map, hsame, hs]
  simp only [Function.comp_def, Nat.succ_eq_add_one, after_succ, after_zero, run_passing,
    Bool.not_false, Bool.true_and]

theorem joined_stop (paused : List Run) (final : Run) : (joined paused final).stop = final.stop := by
  induction paused with
  | nil => rfl
  | cons _ _ ih => exact ih

/-- The first of the runs has executed no more than all of them, and its budget is not spent. -/
theorem Stages.first (h : Stages s m paused final) (hstop : final.stop ≠ .step) :
    (m.run s false).stop ≠ .step ∧
      (m.run s false).status.executed ≤ (joined paused final).executed := by
  cases h with
  | last h => exact ⟨hstop, le_rfl⟩
  | stopped h rest => exact ⟨by rw [h]; nofun, Nat.le_add_right _ _⟩

/-- The runs of a machine whose first run is that of the machine behind its first step, with the step
in front. -/
theorem Stages.lengthen {n : Machine} {first : Status} (h : Stages s n paused final)
    (hm : (m.run s false).machine = (n.run s false).machine)
    (hs : (m.run s false).status = first.followedBy (n.run s false).status) :
    ∃ paused' final', Stages s m paused' final' ∧ final'.machine = final.machine ∧
      joined paused' final' = first.followedBy (joined paused final) ∧
      paused'.map (·.stop) = paused.map (·.stop) := by
  have hstop : (m.run s false).stop = (n.run s false).stop := congrArg Status.stop hs
  cases h with
  | last h => exact ⟨[], m.run s false, .last (by rwa [hstop]), hm, hs, rfl⟩
  | @stopped _ a paused final h rest =>
    refine ⟨m.run s false :: paused, final, .stopped (hstop.trans h) (hm ▸ rest), rfl, ?_, ?_⟩
    · change (m.run s false).status.followedBy (joined paused final) = _
      rw [hs, Status.followedBy_assoc]
      rfl
    · rw [List.map_cons, List.map_cons, hstop]

theorem runFor_passing_succ (hl : 1 ≤ limit) (hstep : (m.run s true).stop = .step) :
    (m.runFor s.passing (limit + 1)).machine =
      ((m.run s true).machine.runFor s.passing limit).machine ∧
    (m.runFor s.passing (limit + 1)).status = (m.run s true).status.followedBy
      ((m.run s true).machine.runFor s.passing limit).status := by
  rw [← run_passing] at hstep ⊢
  obtain ⟨hp, -⟩ | ⟨-, h⟩ := runFor_completed hl hstep
  · simp [pauses, Settings.passing] at hp
  · exact h

/-- A run that ends at once has nothing to cut. -/
theorem cut_of_halted (h : (m.run s true).stop ≠ .step) :
    Cut s m (m.runFor s.passing limit) [] (m.run s false) := by
  have hwhole : m.runFor s.passing limit = m.run s true := by
    rw [runFor_halted (by rwa [run_passing]), run_passing]
  have hrun : m.run s false = m.run s true := runFor_halted h
  rw [hwhole]
  refine ⟨.last fun a => ?_, by rw [hrun], by rw [hrun]; rfl, ?_⟩
  · rw [hrun]
    exact run_ne_breakpoint s m a
  · rw [executed_of_halted h]
    rfl

/-- A step in front of a run that has been cut: it ends in a part of its own, or is the first step of
the first part. -/
theorem Cut.step (hs : s.noBreak = false) (hstep : (m.run s true).stop = .step) (hl : 1 ≤ limit)
    (hlimit : limit < unlimited)
    (hend : ((m.run s true).machine.runFor s.passing limit).stop ≠ .step)
    (h : Cut s (m.run s true).machine ((m.run s true).machine.runFor s.passing limit) paused final) :
    ∃ paused' final', Cut s m (m.runFor s.passing (limit + 1)) paused' final' := by
  obtain ⟨hwhole, hstatus⟩ := runFor_passing_succ hl hstep
  have hexecuted : (m.runFor s.passing (limit + 1)).status.executed =
      ((m.run s true).machine.runFor s.passing limit).status.executed + 1 := by
    rw [hstatus, Nat.add_comm, ← executed_of_completed hstep]
    rfl
  obtain ⟨budget, hbudget⟩ : ∃ budget, unlimited = budget + 1 := ⟨unlimited - 1, by omega⟩
  -- one step less of the budget is still enough for the first part
  have hspare : (m.run s true).machine.runFor s budget = (m.run s true).machine.run s false := by
    have hfinal : final.stop ≠ .step := by
      rw [← joined_stop paused, h.status]
      exact hend
    obtain ⟨hstop, hle⟩ := h.stages.first hfinal
    have hlt := executed_lt_of_stop hl hend
    rw [h.status] at hle
    exact runFor_spare hstop (lt_of_le_of_lt hle (by omega))
  have hrun : m.run s false = m.runFor s (budget + 1) := by rw [← hbudget]; rfl
  have hfirst := runFor_completed (show 1 ≤ budget by omega) hstep
  rw [← hrun, hspare] at hfirst
  obtain ⟨hp, hm, hst⟩ | ⟨hp, hm, hst⟩ := hfirst
  · have hstop : (m.run s false).stop = .breakpoint (m.run s true).machine.ip :=
      congrArg Status.stop hst
    refine ⟨m.run s false :: paused, final, .stopped hstop (hm ▸ h.stages),
      h.machine.trans hwhole.symm, ?_, ?_⟩
    · change (m.run s false).status.followedBy (joined paused final) = _
      rw [hst, h.status, hstatus]
      rfl
    · rw [List.map_cons, h.stops, hstop, hexecuted, marked_succ hs, if_pos hp, List.map_cons]
  · obtain ⟨paused', final', hstages, hmachine, hjoined', hstops⟩ := h.stages.lengthen hm hst
    refine ⟨paused', final', hstages, ?_, ?_, ?_⟩
    · rw [hmachine, h.machine, hwhole]
    · rw [hjoined', h.status, hstatus]
    · rw [hstops, h.stops, hexecuted, marked_succ hs, if_neg (by rw [hp]; decide)]

theorem runFor_cut (hs : s.noBreak = false) (hlimit : limit ≤ unlimited)
    (hend : (m.runFor s.passing limit).stop ≠ .step) :
    ∃ paused final, Cut s m (m.runFor s.passing limit) paused final := by
  induction limit generalizing m with
  | zero => exact ⟨_, _, cut_of_halted (by rwa [← run_passing])⟩
  | succ limit ih =>
    by_cases hstep : (m.run s true).stop = .step
    · rcases Nat.eq_zero_or_pos limit with rfl | hl
      · exact absurd hstep (by rwa [← run_passing])
      · obtain ⟨-, hstatus⟩ := runFor_passing_succ hl hstep
        have hstop : (m.runFor s.passing (limit + 1)).stop =
            ((m.run s true).machine.runFor s.passing limit).stop := congrArg Status.stop hstatus
        have hrest : ((m.run s true).machine.runFor s.passing limit).stop ≠ .step := by rwa [← hstop]
        obtain ⟨paused, final, h⟩ := ih (by omega) hrest
        exact h.step hs hstep hl (by omega) hrest
    · exact ⟨_, _, cut_of_halted hstep⟩

theorem run_transparent (hs : s.noBreak = false) (hend : (m.run s.passing false).stop = .endOfCode ∨
    ∃ f, (m.run s.passing false).stop = .fault f) :
    ∃ paused final, Cut s m (m.run s.passing false) paused final := by
  refine runFor_cut hs le_rfl ?_
  obtain h | ⟨f, h⟩ := hend
  · exact ne_of_eq_of_ne h nofun
  · exact ne_of_eq_of_ne h nofun

/-- A loop that is gone through twice, with breakpoints where the program starts, at the head of the
loop and behind the last byte. -/
def markedTwice : Machine :=
  (((ofCode [0xB9, 0x02, 0x00, 0x00, 0x00, 0xFF, 0xC9, 0x75, 0xFC]).setBreakpoint 0x1000).setBreakpoint
    0x1005).setBreakpoint 0x1009

theorem markedTwice_transparent : ∃ paused final,
    Cut .execute markedTwice (markedTwice.run Settings.execute.passing false) paused final ∧
    paused.map (·.stop) = [.breakpoint 0x1005, .breakpoint 0x1005, .breakpoint 0x1009] ∧
    joined paused final = ⟨[], 0x1009, .endOfCode, 5, none⟩ := by
  have hwhole : markedTwice.run Settings.execute.passing false =
      markedTwice.runFor Settings.execute.passing 9 :=
    runFor_spare (by decide) (by decide)
  have hend : (markedTwice.run Settings.execute.passing false).stop = .endOfCode := by
    rw [hwhole]
    rfl
  obtain ⟨paused, final, h⟩ := run_transparent (s := .execute) rfl (.inl hend)
  refine ⟨paused, final, h, ?_, ?_⟩
  · rw [h.stops, hwhole]
    rfl
  · rw [h.status, hwhole]
    rfl

end Machine

end LongMode

import LongMode.Proofs.Run.Stability
import LongMode.Proofs.Run.Transparency
/-!
What a budget buys. A budget of none buys one step, as a budget of one does; apart from that no run
goes over its budget, and two runs one after the other do what one run does whose budget is that of
both together. The exception is a machine that a fault has left so that it goes on when it is run
again, because a repeated instruction has overwritten itself before the fault.
-/

namespace LongMode.Machine

variable {s : Settings} {m : Machine} {limit a b : Nat}

/-- No breakpoint stops a run of the machine. -/
def Unpaused (s : Settings) (m : Machine) : Prop := s.noBreak = true ∨ m.breakpoints = ∅

/-- The machine is run for a step in vain: the step is not completed, and nothing changes. -/
def Rests (s : Settings) (m : Machine) : Prop :=
  (m.run s true).stop ≠ .step ∧ (m.run s true).machine = m

/-- Two runs one after the other do what one run does whose budget is that of both together: they
complete as many instructions, and come to the same machine. -/
def Splits (s : Settings) (m : Machine) (a b : Nat) : Prop :=
  ((m.runFor s a).machine.runFor s b).machine = (m.runFor s (a + b)).machine ∧
  (m.runFor s a).status.executed + ((m.runFor s a).machine.runFor s b).status.executed =
    (m.runFor s (a + b)).status.executed

theorem Unpaused.not_pauses (h : m.Unpaused s) : m.pauses s = false := by
  unfold pauses isBreakpoint
  rcases h with h | h
  · rw [h]
    rfl
  · rw [h]
    simp

theorem Unpaused.run (h : m.Unpaused s) : (m.run s true).machine.Unpaused s := by
  unfold Unpaused at h ⊢
  rw [run_breakpoints]
  exact h

/-- Behind a first step that completes, the rest of the budget is there for the rest of the run. -/
theorem Unpaused.completed (h : m.Unpaused s) (hl : 1 ≤ limit) (hstep : (m.run s true).stop = .step) :
    (m.runFor s (limit + 1)).machine = ((m.run s true).machine.runFor s limit).machine ∧
    (m.runFor s (limit + 1)).status =
      (m.run s true).status.followedBy ((m.run s true).machine.runFor s limit).status := by
  rcases runFor_completed hl hstep with ⟨hp, -⟩ | ⟨-, hrest⟩
  · rw [h.run.not_pauses] at hp
    cases hp
  · exact hrest

theorem runFor_max (s : Settings) (m : Machine) (limit : Nat) :
    m.runFor s (max limit 1) = m.runFor s limit := by
  unfold runFor
  rw [Nat.max_assoc, Nat.max_self]

/-! The count. -/

theorem executed_le (s : Settings) (m : Machine) (limit : Nat) :
    (m.runFor s limit).status.executed ≤ max limit 1 := by
  rcases runOn_iterates s (max limit 1) (by omega) m {} with ⟨k, hfollows, hends⟩
  have hexecuted : (m.runFor s limit).status.executed = k :=
    hfollows.executed.trans (Nat.zero_add k)
  rw [hexecuted]
  exact hends.count

/-- A run completes something exactly if its first step does. -/
theorem executed_eq_zero_iff (s : Settings) (m : Machine) (limit : Nat) :
    (m.runFor s limit).status.executed = 0 ↔ (m.run s true).stop ≠ .step := by
  constructor
  · intro h hstep
    rcases Nat.eq_zero_or_pos (max limit 1 - 1) with h1 | h1
    · have hone : m.runFor s limit = m.run s true := by
        unfold run runFor
        rw [show max limit 1 = 1 by omega]
        rfl
      rw [hone, executed_of_completed hstep] at h
      cases h
    · have hsucc := runFor_completed h1 hstep
      rw [Nat.sub_add_cancel (by omega), runFor_max] at hsucc
      rcases hsucc with ⟨-, -, hstatus⟩ | ⟨-, -, hstatus⟩
      · rw [hstatus] at h
        exact absurd h (by rw [executed_of_completed hstep]; decide)
      · rw [hstatus] at h
        have hone := executed_of_completed hstep
        change (m.run s true).status.executed + _ = 0 at h
        omega
  · intro h
    rw [runFor_halted h]
    exact executed_of_halted h

theorem executed_le_iff (s : Settings) (m : Machine) (limit : Nat) :
    (m.runFor s limit).status.executed ≤ limit ↔ 1 ≤ limit ∨ (m.run s true).stop ≠ .step := by
  rcases Nat.eq_zero_or_pos limit with rfl | hl
  · rw [Nat.le_zero, executed_eq_zero_iff]
    simp
  · have hle := executed_le s m limit
    constructor
    · intro _
      left
      exact hl
    · intro _
      omega

theorem rests_iff (s : Settings) (m : Machine) (limit : Nat) :
    ((m.runFor s limit).machine = m ∧ (m.runFor s limit).status.executed = 0) ↔ m.Rests s := by
  rw [executed_eq_zero_iff]
  constructor
  · rintro ⟨hm, hstop⟩
    rw [runFor_halted hstop] at hm
    exact ⟨hstop, hm⟩
  · rintro ⟨hstop, hm⟩
    rw [runFor_halted hstop]
    exact ⟨hm, hstop⟩

/-! The split. -/

/-- A run that has spent its budget goes on with more of it. -/
theorem runFor_add (h : m.Unpaused s) (ha : 1 ≤ a) (hb : 1 ≤ b)
    (hspent : (m.runFor s a).stop = .step) :
    (m.runFor s (a + b)).machine = ((m.runFor s a).machine.runFor s b).machine ∧
    (m.runFor s (a + b)).status =
      (m.runFor s a).status.followedBy ((m.runFor s a).machine.runFor s b).status := by
  induction a, ha using Nat.le_induction generalizing m with
  | base =>
    rw [Nat.add_comm]
    exact h.completed hb hspent
  | succ a ha ih =>
    have hstep : (m.run s true).stop = .step := by
      by_contra hne
      rw [runFor_halted hne] at hspent
      exact hne hspent
    rcases h.completed ha hstep with ⟨hm, hs⟩
    rcases h.completed (show 1 ≤ a + b by omega) hstep with ⟨hm', hs'⟩
    have hrest : ((m.run s true).machine.runFor s a).stop = .step := by
      have hstop := congrArg Status.stop hs
      exact hstop.symm.trans hspent
    rcases ih h.run hrest with ⟨hmachine, hstatus⟩
    rw [Nat.add_right_comm, hm', hs', hm, hs, hmachine, hstatus, Status.followedBy_assoc]
    exact ⟨rfl, rfl⟩

/-- A run that has not spent its budget is not changed by more of it. -/
theorem runFor_of_stop {more : Nat} (hstop : (m.runFor s limit).stop ≠ .step)
    (hmore : limit ≤ more) : m.runFor s more = m.runFor s limit := by
  rw [← runFor_max s m limit] at hstop ⊢
  have hlt := executed_lt_of_stop (Nat.le_max_right limit 1) hstop
  rw [← runFor_max s m more]
  exact runFor_spare hstop (by omega)

/-- A run of one instruction more does no more exactly if the run before it has not spent its budget or
has left a machine that rests. -/
theorem runFor_succ_iff (h : m.Unpaused s) (hl : 1 ≤ limit) :
    ((m.runFor s (limit + 1)).machine = (m.runFor s limit).machine ∧
      (m.runFor s (limit + 1)).status.executed = (m.runFor s limit).status.executed) ↔
    (m.runFor s limit).stop ≠ .step ∨ (m.runFor s limit).machine.Rests s := by
  by_cases hspent : (m.runFor s limit).stop = .step
  · rcases runFor_add h hl le_rfl hspent with ⟨hm, hs⟩
    have hexecuted : (m.runFor s (limit + 1)).status.executed = (m.runFor s limit).status.executed +
        ((m.runFor s limit).machine.runFor s 1).status.executed := congrArg Status.executed hs
    rw [hm, hexecuted, ← rests_iff s _ 1]
    simp [hspent]
  · rw [runFor_of_stop hspent (Nat.le_succ limit)]
    simp [hspent]

/-- When two runs do what one run does with the budget of both. The first of them must have spent its
budget or left a machine that rests; and where a budget is none, which is one too many, the one run
must have had no use for one more. -/
theorem splits_iff (h : m.Unpaused s) (a b : Nat) : m.Splits s a b ↔
    ((m.runFor s a).stop = .step ∨ (m.runFor s a).machine.Rests s) ∧
    ((1 ≤ a ∧ 1 ≤ b) ∨ (m.runFor s (a + b)).stop ≠ .step ∨
      (m.runFor s (a + b)).machine.Rests s) := by
  unfold Splits
  by_cases hspent : (m.runFor s a).stop = .step
  · -- the two runs are one run with a budget of one more for each budget that is none
    have hspent' : (m.runFor s (max a 1)).stop = .step := by rwa [runFor_max]
    rcases runFor_add h (Nat.le_max_right a 1) (Nat.le_max_right b 1) hspent' with ⟨hm, hs⟩
    have hexecuted := congrArg Status.executed hs
    rw [runFor_max s m a, runFor_max] at hm hexecuted
    change _ = (m.runFor s a).status.executed + _ at hexecuted
    rw [← hm, ← hexecuted]
    by_cases hboth : 1 ≤ a ∧ 1 ≤ b
    · rw [Nat.max_eq_left hboth.1, Nat.max_eq_left hboth.2]
      simp [hspent, hboth]
    · have hsum : max a 1 + max b 1 = max (a + b) 1 + 1 := by omega
      rw [hsum, ← runFor_max s m (a + b), runFor_succ_iff h (Nat.le_max_right _ _)]
      simp [hspent, hboth]
  · -- nothing is left to do for the second run, if the machine rests
    rw [runFor_of_stop hspent (Nat.le_add_right a b), Nat.add_eq_left, rests_iff]
    simp [hspent]

theorem Unpaused.after (h : m.Unpaused s) (n : Nat) : (m.after s n).Unpaused s := by
  induction n generalizing m with
  | zero => exact h
  | succ n ih => exact ih h.run

/-- The faults that end runs of the machine leave the encodings alone that they were met by. -/
def KeepsFaulting (s : Settings) (m : Machine) : Prop :=
  ∀ limit f, (m.runFor s limit).stop = .fault f →
    (m.after s (m.runFor s limit).status.executed).KeepsEncoding s

/-- Where a run has not spent its budget, it has left a machine that rests and tells again why. -/
theorem Unpaused.rests (h : m.Unpaused s) (hk : m.KeepsFaulting s)
    (hstop : (m.runFor s limit).stop ≠ .step) :
    (m.runFor s limit).machine.Rests s ∧
    ((m.runFor s limit).machine.run s true).status =
      ⟨[], (m.runFor s limit).machine.ip, (m.runFor s limit).stop, 0, none⟩ := by
  rcases runOn_iterates s (max limit 1) (by omega) m {} with ⟨k, hfollows, hends⟩
  have hexecuted : (m.runFor s limit).status.executed = k :=
    hfollows.executed.trans (Nat.zero_add k)
  have hk := hk limit
  rw [hexecuted] at hk
  change Ends s _ k _ (m.runFor s limit).stop (m.runFor s limit).machine at hends
  generalize m.runFor s limit = r at hends hk hstop
  generalize hr : r.stop = stop at hends hk hstop
  generalize hn : r.machine = n at hends
  cases hends with
  | spent _ => exact absurd rfl hstop
  | paused _ _ hp =>
    rw [(h.after k).not_pauses] at hp
    cases hp
  | outside _ _ hc =>
    unfold Rests
    rw [run_single_outside hc]
    exact ⟨⟨nofun, rfl⟩, rfl⟩
  | @faulted _ _ f hf =>
    have hagain := run_again hf (hk f rfl)
    unfold Rests
    rw [hagain]
    refine ⟨⟨?_, rfl⟩, ?_⟩
    · rw [hf]
      nofun
    · rw [run_fault_status hf, run_fault_ip hf]

/-- What is told of two runs is what is told of one. -/
theorem Unpaused.tells (h : m.Unpaused s) (hk : m.KeepsFaulting s) (ha : 1 ≤ a) (hb : 1 ≤ b) :
    (m.runFor s a).status.followedBy ((m.runFor s a).machine.runFor s b).status =
      (m.runFor s (a + b)).status := by
  by_cases hspent : (m.runFor s a).stop = .step
  · exact (runFor_add h ha hb hspent).2.symm
  · rcases h.rests hk hspent with ⟨⟨hrest, -⟩, hstatus⟩
    rw [runFor_of_stop hspent (Nat.le_add_right a b), runFor_halted hrest, hstatus]
    simp [Status.followedBy, Run.status]

/-- What becomes of the budgets that a machine is run with. -/
structure Budgeted (s : Settings) (m : Machine) : Prop where
  /-- A run keeps to its budget unless that is none and the first step completes. -/
  within : ∀ limit, (m.runFor s limit).status.executed ≤ limit ↔
    1 ≤ limit ∨ (m.run s true).stop ≠ .step
  /-- A budget of none buys nothing only where a step is in vain. -/
  idle : ((m.runFor s 0).status.executed = 0 ∧ (m.runFor s 0).machine = m) ↔ m.Rests s
  /-- A budget can be split where both parts buy what they say, or nothing is left to be bought. -/
  split : m.Unpaused s → ∀ a b, m.Splits s a b ↔
    ((m.runFor s a).stop = .step ∨ (m.runFor s a).machine.Rests s) ∧
    ((1 ≤ a ∧ 1 ≤ b) ∨ (m.runFor s (a + b)).stop ≠ .step ∨
      (m.runFor s (a + b)).machine.Rests s)
  /-- If no fault leaves its encoding changed, a budget can be split into any two that are not none. -/
  whole : m.Unpaused s → m.KeepsFaulting s → ∀ a b, 1 ≤ a → 1 ≤ b → m.Splits s a b ∧
    (m.runFor s a).status.followedBy ((m.runFor s a).machine.runFor s b).status =
      (m.runFor s (a + b)).status

theorem budgeted (s : Settings) (m : Machine) : m.Budgeted s where
  within := executed_le_iff s m
  idle := by
    rw [← rests_iff s m 0]
    exact And.comm
  split := splits_iff
  whole h hk a b ha hb := by
    refine ⟨(splits_iff h a b).2 ⟨?_, .inl ⟨ha, hb⟩⟩, h.tells hk ha hb⟩
    by_cases hspent : (m.runFor s a).stop = .step
    · left
      exact hspent
    · right
      exact (h.rests hk hspent).1

end LongMode.Machine

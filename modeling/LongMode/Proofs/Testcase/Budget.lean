import LongMode.Proofs.Testcase.Report
/-!
The limit of a testcase against the instructions that it takes. Where every checkpoint is reached,
the limit does not show in what there is to tell, as long as the last checkpoint comes before it is
spent. The instruction that spends the limit ends the run before the checkpoint that it comes to is
looked at, so the limit has to be more than what the testcase takes.
-/

namespace LongMode

namespace Machine

variable {m : Machine} {limit more i j : Nat} {a : UInt64}

theorem Arrives.rebudget (h : m.Arrives limit i a j) (hj : j < more) : m.Arrives more i a j :=
  ⟨h.behind, hj, h.completes, h.here, h.first⟩

end Machine

namespace Testcase

open Machine

variable {m : Machine} {limit more i k k' : Nat} {targets : List Target}
  {results results' : List CheckpointResult} {t : Testcase} {report : TestReport}

def AllReached (results : List CheckpointResult) : Prop := ∀ r ∈ results, r.reached = true

theorem not_allReached_missed (t : Target) (rest : List Target) (stop : StopReason) :
    ¬ AllReached ((t :: rest).map fun u => .missed u.address stop) := by
  intro h
  cases h (.missed t.address stop) (by simp)

theorem allReached_of_passed (hp : report.passed = true) : AllReached report.checkpoints := by
  intro r hr
  have hpassed := List.all_eq_true.1 hp r hr
  unfold CheckpointResult.passed at hpassed
  exact (Bool.and_eq_true_iff.1 hpassed).1

namespace Outcomes

/-- The last checkpoint comes no earlier than the start, and within the limit. -/
theorem within (h : Outcomes m limit i targets results k) (hall : AllReached results) :
    i ≤ k ∧ (targets ≠ [] → k < limit) := by
  induction h with
  | done => exact ⟨le_rfl, fun h => absurd rfl h⟩
  | @reached i j k t rest results h hrest ih =>
    obtain ⟨hle, hlt⟩ := ih fun r hr => hall r (List.mem_cons_of_mem _ hr)
    have hbehind := h.behind
    refine ⟨by omega, fun _ => ?_⟩
    cases hrest with
    | done => exact h.within
    | reached _ _ => exact hlt (List.cons_ne_nil _ _)
    | missed _ _ => exact hlt (List.cons_ne_nil _ _)
  | missed _ _ => exact absurd hall (not_allReached_missed _ _ _)

/-- Under every limit that the last checkpoint comes before, there is the same to tell. -/
theorem rebudget (h : Outcomes m limit i targets results k) (hall : AllReached results)
    (hk : k < more) (h' : Outcomes m more i targets results' k') :
    results' = results ∧ k' = k := by
  induction h generalizing results' with
  | done =>
    cases h'
    exact ⟨rfl, rfl⟩
  | @reached i j k t rest results h hrest ih =>
    have hall' : AllReached results := fun r hr => hall r (List.mem_cons_of_mem _ hr)
    have hj : m.Arrives more i t.address j := h.rebudget (by
      have := (hrest.within hall').1
      omega)
    cases h' with
    | reached hj' hrest' =>
      obtain rfl := hj.unique hj'
      obtain ⟨rfl, rfl⟩ := ih hall' hk hrest'
      exact ⟨rfl, rfl⟩
    | missed hn _ => exact absurd ⟨j, hj⟩ hn
  | missed _ _ => exact absurd hall (not_allReached_missed _ _ _)

end Outcomes

theorem ne_nil_of_validate (h : t.validate = .ok ()) : t.checkpoints ≠ [] := by
  obtain ⟨code, -, h⟩ := ok_of_bind h
  split_ifs at h with hcode hnone
  simpa using hnone

theorem addresses_of_ofCheckpoints {cs : List Checkpoint} {targets : List Target}
    (h : Target.ofCheckpoints cs = .ok targets) :
    targets.map Target.address = cs.map Checkpoint.address := by
  induction cs generalizing targets with
  | nil => cases h; rfl
  | cons c rest ih =>
    obtain ⟨registers, -, h⟩ := ok_of_bind h
    obtain ⟨others, hothers, h⟩ := ok_of_bind h
    cases h
    rw [List.map_cons, List.map_cons, ih hothers]
    rfl

/-- What is needed to run a testcase does not hang on the limit, and each report tells of its run. -/
theorem run_outcomes (h : t.run limit = .ok report) : ∃ code targets, targets ≠ [] ∧
    ∀ more, ∃ other, t.run more = .ok other ∧ other.name = t.name ∧
      Outcomes (.ofCode code) more 0 targets other.checkpoints other.executed := by
  obtain ⟨⟨m, targets⟩, hprepare, -⟩ := ok_of_bind h
  have hp := hprepare
  obtain ⟨⟨⟩, hv, hp⟩ := ok_of_bind hp
  obtain ⟨code, hcode, hp⟩ := ok_of_bind hp
  obtain ⟨targets, htargets, hp⟩ := ok_of_bind hp
  cases hp
  have haddresses := addresses_of_ofCheckpoints htargets
  obtain ⟨breakpoints, hmachine, hb⟩ := t.machine_eq code
  have hcontains : ∀ u ∈ targets, breakpoints.contains u.address = true := by
    intro u hu
    have hmem : u.address ∈ t.checkpoints.map Checkpoint.address :=
      haddresses ▸ List.mem_map_of_mem hu
    obtain ⟨c, hc, hca⟩ := List.mem_map.1 hmem
    exact hca ▸ hb c hc
  refine ⟨code, targets, ?_, fun more => ?_⟩
  · rintro rfl
    exact ne_nil_of_validate hv (List.map_eq_nil_iff.1 haddresses.symm)
  · have houtcomes : Outcomes (.ofCode code) more 0 targets _ _ :=
      visit_outcomes (fun _ () => ()) targets hcontains ⟨t.machine code, 0, ()⟩ (Nat.zero_le _)
        (by nofun) hmachine
    have hrun : t.run more =
        .ok (Testcase.report (fun _ () => ()) more t.name (t.machine code) targets ()).1 := by
      unfold run
      rw [hprepare]
      rfl
    exact ⟨_, hrun, rfl, houtcomes⟩

theorem run_spare (h : t.run limit = .ok report) (hp : report.passed = true) (more : Nat) :
    ∃ other, t.run more = .ok other ∧ (report.executed < more → other = report) ∧
      (more ≤ report.executed → other.passed = false) := by
  obtain ⟨code, targets, hne, hruns⟩ := run_outcomes h
  obtain ⟨same, hsame, hname, hout⟩ := hruns limit
  cases h.symm.trans hsame
  obtain ⟨other, hother, hname', hout'⟩ := hruns more
  have hall := allReached_of_passed hp
  refine ⟨other, hother, fun hlt => ?_, fun hle => ?_⟩
  · obtain ⟨hresults, hexecuted⟩ := hout.rebudget hall hlt hout'
    calc other = ⟨other.name, other.checkpoints, other.executed⟩ := rfl
      _ = report := by rw [hname', ← hname, hresults, hexecuted]
  · by_contra hpassed
    have hall' := allReached_of_passed (by simpa using hpassed)
    -- a limit that reaches them all is more than they take, under both limits the same
    have hlt' := (hout'.within hall').2 hne
    have hlt := (hout.within hall).2 hne
    obtain ⟨-, hexecuted⟩ := hout'.rebudget hall' (by omega) hout
    omega

/-- Two instructions with a checkpoint behind each of them, the second one where the code ends. -/
def sumCase : Testcase where
  name := "add"
  code := .bytes [0xB8, 0x05, 0x00, 0x00, 0x00, 0x83, 0xC0, 0x03]
  checkpoints :=
    [⟨0x1005, [("EAX", 5)], [], .undefined⟩, ⟨0x1008, [("RAX", 8)], [], .undefined⟩]

theorem sumCase_spare : ∃ report other, sumCase.run 3 = .ok report ∧ report.passed = true ∧
    report.executed = 2 ∧ sumCase.run 5 = .ok report ∧ sumCase.run 2 = .ok other ∧
    other.passed = false := by
  have hreport : sumCase.run 3 = .ok ⟨"add", [⟨0x1005, true, []⟩, ⟨0x1008, true, []⟩], 2⟩ := by
    decide +kernel
  obtain ⟨same, hsame, hspare, -⟩ := run_spare hreport (by decide) 5
  obtain ⟨other, hother, -, hfails⟩ := run_spare hreport (by decide) 2
  rw [hspare (by decide)] at hsame
  exact ⟨_, other, hreport, by decide, rfl, hsame, hother, hfails (by decide)⟩

end Testcase

end LongMode

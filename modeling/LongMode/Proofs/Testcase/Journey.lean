import LongMode.Testcase.Run
import LongMode.Proofs.Run.Breakpoints
/-!
The journey of a testcase against the trace of single steps. The machine that makes the journey
carries a breakpoint for every checkpoint; apart from these it is at each stop the machine of the
trace, and it stops at an address exactly where the trace comes there next.
-/

namespace LongMode

namespace Machine

variable {m : Machine} {limit i j k : Nat} {a : UInt64} {stop : StopReason}

/-- The trace of `m` has at least `n` steps. -/
def Completes (m : Machine) (n : Nat) : Prop :=
  ∀ i < n, ((m.after .execute i).run .execute true).stop = .step

/-- Behind its step `i`, and within the limit, the trace of `m` first comes to the address `a` with
step `j`. -/
structure Arrives (m : Machine) (limit i : Nat) (a : UInt64) (j : Nat) : Prop where
  behind : i < j
  within : j < limit
  completes : m.Completes j
  here : (m.after .execute j).ip = a
  first : ∀ k, i < k → k < j → (m.after .execute k).ip ≠ a

/-- Why the trace of `m` takes no more steps within the limit than `n`. -/
inductive Stuck (m : Machine) (limit n : Nat) : StopReason → Prop
  | spent (h : n = limit) : Stuck m limit n .step
  | outside (h : n < limit) (hc : (m.after .execute n).inCode = false) : Stuck m limit n .endOfCode
  | faulted (h : n < limit) {f : Fault} (hf : ((m.after .execute n).run .execute true).stop = .fault f) :
    Stuck m limit n (.fault f)

theorem Arrives.unique (hj : m.Arrives limit i a j) (hk : m.Arrives limit i a k) : j = k := by
  rcases Nat.lt_trichotomy j k with h | h | h
  · exact absurd hj.here (hk.first j hj.behind h)
  · exact h
  · exact absurd hk.here (hj.first k hk.behind h)

/-- What is passed on the way to a later start is no arrival. -/
theorem arrives_iff_of_passed (hik : i ≤ k)
    (hpassed : ∀ x, i < x → x ≤ k → (m.after .execute x).ip ≠ a) :
    m.Arrives limit i a j ↔ m.Arrives limit k a j := by
  constructor
  · rintro ⟨hbehind, hwithin, hcompletes, hhere, hfirst⟩
    have hkj : k < j := by
      by_contra h
      exact hpassed j hbehind (by omega) hhere
    exact ⟨hkj, hwithin, hcompletes, hhere, fun x hx => hfirst x (by omega)⟩
  · rintro ⟨hbehind, hwithin, hcompletes, hhere, hfirst⟩
    refine ⟨by omega, hwithin, hcompletes, hhere, fun x hx hxj => ?_⟩
    rcases Nat.lt_or_ge k x with h | h
    · exact hfirst x h hxj
    · exact hpassed x hx h

theorem Stuck.le (h : m.Stuck limit i stop) : i ≤ limit := by
  cases h <;> omega

theorem Stuck.not_completes (h : m.Stuck limit k stop) (hkj : k < j) (hj : j < limit) :
    ¬ m.Completes j := by
  intro hc
  have hstep := hc k hkj
  cases h with
  | spent h => omega
  | outside h hout =>
    rw [run_single_outside hout] at hstep
    cases hstep
  | faulted h hf =>
    rw [hf] at hstep
    cases hstep

theorem after_add (s : Settings) (m : Machine) (i j : Nat) :
    (m.after s i).after s j = m.after s (i + j) := by
  rw [Nat.add_comm]
  exact (Function.iterate_add_apply _ j i m).symm

end Machine

namespace Testcase

open Machine

variable {β : Type} {m : Machine} {breakpoints : Std.ExtTreeSet UInt64} {limit : Nat}

/-- How a run on the way, which has come from step `e` of the trace to step `k`, has ended: at the
next breakpoint, or where the trace is stuck. -/
inductive Leg (m : Machine) (breakpoints : Std.ExtTreeSet UInt64) (limit e k : Nat)
    (stop : StopReason) (machine : Machine) : Prop
  | paused (behind : e < k) (within : k < limit)
    (marked : breakpoints.contains (m.after .execute k).ip = true)
    (hstop : stop = .breakpoint (m.after .execute k).ip)
    (hmachine : machine = (m.after .execute k).withBreakpoints breakpoints)
  | stuck (h : m.Stuck limit k stop) (hstop : ∀ b, stop ≠ .breakpoint b)
    (quiet : e < k → k < limit → breakpoints.contains (m.after .execute k).ip = false)

/-- A run on the way passes no breakpoint. -/
theorem runFor_leg {e : Nat} (he : e < limit) (hc : m.Completes e) {r : Run}
    (hr : r = ((m.after .execute e).withBreakpoints breakpoints).runFor .execute (limit - e)) :
    ∃ k, e + r.progress.executed = k ∧ m.Completes k ∧
      (∀ x, e < x → x < k → breakpoints.contains (m.after .execute x).ip = false) ∧
      Leg m breakpoints limit e k r.stop r.machine := by
  have hrun : r = runOn .execute (limit - e)
      ((m.after .execute e).withBreakpoints breakpoints) {} := by
    rw [hr, runFor, Nat.max_eq_left (by omega)]
  have hat (i : Nat) : ((m.after .execute e).withBreakpoints breakpoints).after .execute i =
      (m.after .execute (e + i)).withBreakpoints breakpoints := by
    rw [after_withBreakpoints, after_add]
  have hpauses (n : Machine) : (n.withBreakpoints breakpoints).pauses .execute =
      breakpoints.contains n.ip := rfl
  obtain ⟨k, hf, hends⟩ := runOn_iterates .execute (limit - e) (by omega)
    ((m.after .execute e).withBreakpoints breakpoints) {}
  rw [← hrun] at hf hends
  have hcompleted := hf.completed
  have hpassed := hf.passed
  simp only [hat, hpauses, (run_withBreakpoints _).2] at hcompleted hpassed
  rw [hat] at hends
  refine ⟨e + k, by rw [hf.executed, Nat.zero_add], ?_, ?_, ?_⟩
  · intro i hi
    rcases Nat.lt_or_ge i e with h | h
    · exact hc i h
    · have := hcompleted (i - e) (by omega)
      rwa [Nat.add_sub_cancel' h] at this
  · intro x hx hxk
    have := hpassed (x - e) (by omega) (by omega)
    rwa [Nat.add_sub_cancel' (by omega)] at this
  · have hquiet (hp : ¬ (1 ≤ k ∧ breakpoints.contains (m.after .execute (e + k)).ip = true))
        (h : e < e + k) : breakpoints.contains (m.after .execute (e + k)).ip = false := by
      by_contra hb
      exact hp ⟨by omega, by simpa using hb⟩
    generalize r.stop = stop at hends ⊢
    generalize r.machine = n at hends ⊢
    cases hends with
    | spent h => exact .stuck (.spent (by omega)) nofun fun _ _ => by omega
    | paused h h1 hp => exact .paused (by omega) (by omega) hp rfl rfl
    | outside h hp hcode => exact .stuck (.outside (by omega) hcode) nofun fun h _ => hquiet hp h
    | faulted h hp hf =>
      rw [(run_withBreakpoints _).2] at hf
      exact .stuck (.faulted (by omega) hf) nofun fun h _ => hquiet hp h

/-- A journey to an address with a breakpoint ends where the trace comes there next. If the trace
does not, it ends where the trace is stuck. -/
theorem travel_arrives {a : UInt64} (ha : breakpoints.contains a = true)
    (observe : Event → β → β) (fuel : Nat) (j : Journey β) (hfuel : limit - j.executed < fuel)
    (hle : j.executed ≤ limit) (hc : m.Completes j.executed)
    (hm : j.machine = (m.after .execute j.executed).withBreakpoints breakpoints)
    {stop : StopReason} {next : Journey β}
    (ht : travel observe limit a fuel j = (stop, next)) :
    (stop = .breakpoint a ∧ m.Arrives limit j.executed a next.executed ∧
      next.machine = (m.after .execute next.executed).withBreakpoints breakpoints) ∨
    (stop ≠ .breakpoint a ∧ (¬ ∃ k, m.Arrives limit j.executed a k) ∧
      m.Stuck limit next.executed stop) := by
  induction fuel generalizing j with
  | zero => omega
  | succ fuel ih =>
    unfold travel at ht
    dsimp only at ht
    split_ifs at ht with hbudget
    · have hstuck : m.Stuck limit j.executed .step := .spent (by omega)
      cases ht
      refine .inr ⟨nofun, ?_, hstuck⟩
      rintro ⟨k, hk⟩
      exact hstuck.not_completes hk.behind hk.within hk.completes
    · obtain ⟨k, hk, hck, hpassed, hleg⟩ := runFor_leg (by omega) hc (congrArg
        (Machine.runFor .execute (limit - j.executed)) hm)
      have hne {x : Nat} (hx : breakpoints.contains (m.after .execute x).ip = false) :
          (m.after .execute x).ip ≠ a := by
        rintro rfl
        rw [ha] at hx
        cases hx
      rw [hk] at ht
      cases hleg with
      | paused hek hkl hb hstop hmachine =>
        rw [hstop] at ht
        dsimp only at ht
        split_ifs at ht with hat
        · cases ht
          left
          refine ⟨congrArg _ hat, ⟨hek, hkl, hck, hat, fun x hx hxk => hne (hpassed x hx hxk)⟩,
            hmachine⟩
        · have hiff (x : Nat) : m.Arrives limit j.executed a x ↔ m.Arrives limit k a x := by
            refine arrives_iff_of_passed (by omega) fun x hx hxk => ?_
            rcases Nat.lt_or_eq_of_le hxk with h | rfl
            · exact hne (hpassed x hx h)
            · exact hat
          simp only [hiff]
          exact ih _ (by dsimp only; omega) (by dsimp only; omega) hck hmachine ht
      | stuck hstuck hstop hlast =>
        have hnot : ¬ ∃ x, m.Arrives limit j.executed a x := by
          rintro ⟨x, hx⟩
          rcases Nat.lt_trichotomy x k with h | rfl | h
          · exact hne (hpassed x hx.behind h) hx.here
          · exact hne (hlast hx.behind hx.within) hx.here
          · exact hstuck.not_completes h hx.within hx.completes
        split at ht
        · rename_i b hb
          exact absurd hb (hstop b)
        · cases ht
          exact .inr ⟨hstop a, hnot, hstuck⟩

/-- Behind its step `i` the trace comes to the addresses one after the other, to the last one with
step `j`. -/
inductive Visits (m : Machine) (limit : Nat) : Nat → List UInt64 → Nat → Prop
  | nil (i : Nat) : Visits m limit i [] i
  | cons {i j k : Nat} {a : UInt64} {rest : List UInt64} (h : m.Arrives limit i a j)
    (hrest : Visits m limit j rest k) : Visits m limit i (a :: rest) k

/-- What there is to tell of the checkpoints from step `i` of the trace on: it comes to one after the
other until it is stuck, with step `k`. -/
inductive Outcomes (m : Machine) (limit : Nat) :
    Nat → List Target → List CheckpointResult → Nat → Prop
  | done (i : Nat) : Outcomes m limit i [] [] i
  | reached {i j k : Nat} {t : Target} {rest : List Target} {results : List CheckpointResult}
    (h : m.Arrives limit i t.address j) (hrest : Outcomes m limit j rest results k) :
    Outcomes m limit i (t :: rest)
      (⟨t.address, true, t.compare (m.after .execute j)⟩ :: results) k
  | missed {i k : Nat} {t : Target} {rest : List Target} {stop : StopReason}
    (h : ¬ ∃ j, m.Arrives limit i t.address j) (hs : m.Stuck limit k stop) :
    Outcomes m limit i (t :: rest) ((t :: rest).map fun u => .missed u.address stop) k

theorem visit_outcomes (observe : Event → β → β) (targets : List Target)
    (ht : ∀ t ∈ targets, breakpoints.contains t.address = true) (j : Journey β)
    (hle : j.executed ≤ limit) (hc : m.Completes j.executed)
    (hm : j.machine = (m.after .execute j.executed).withBreakpoints breakpoints) :
    Outcomes m limit j.executed targets (visit observe limit targets j).1
      (visit observe limit targets j).2.executed := by
  induction targets generalizing j with
  | nil => exact .done _
  | cons t rest ih =>
    unfold visit
    cases htravel : travel observe limit t.address (limit + 1) j with
    | mk stop next =>
      obtain ⟨hstop, ha, hnext⟩ | ⟨hstop, hn, hs⟩ :=
        travel_arrives (ht t (by simp)) observe (limit + 1) j (by omega) hle hc hm htravel
      · dsimp only
        rw [if_pos hstop]
        have hcompare : t.compare next.machine = t.compare (m.after .execute next.executed) := by
          rw [hnext]
          rfl
        rw [hcompare]
        generalize observe (.reached t.address (t.compare (m.after .execute next.executed)))
          next.seen = seen
        exact .reached ha (ih (fun u hu => ht u (List.mem_cons_of_mem t hu))
          ⟨next.machine, next.executed, seen⟩ ha.within.le ha.completes hnext)
      · dsimp only
        rw [if_neg hstop]
        exact .missed hn hs

namespace Outcomes

variable {i k : Nat} {targets : List Target} {results : List CheckpointResult}

theorem addresses (h : Outcomes m limit i targets results k) :
    results.map CheckpointResult.address = targets.map Target.address := by
  induction h with
  | done => rfl
  | reached _ _ ih => rw [List.map_cons, List.map_cons, ih]
  | missed => rw [List.map_map]; rfl

theorem le (h : Outcomes m limit i targets results k) (hi : i ≤ limit) : k ≤ limit := by
  induction h with
  | done => exact hi
  | reached h _ ih => exact ih h.within.le
  | missed _ hs => exact hs.le

theorem reached_iff (h : Outcomes m limit i targets results k) {n : Nat} {r : CheckpointResult}
    (hr : results[n]? = some r) : r.reached = true ↔
      ∃ j, Visits m limit i ((targets.take (n + 1)).map Target.address) j := by
  induction h generalizing n with
  | done => cases hr
  | @reached i j k t rest results h hrest ih =>
    cases n with
    | zero =>
      cases hr
      exact ⟨fun _ => ⟨j, .cons h (.nil j)⟩, fun _ => rfl⟩
    | succ n =>
      rw [List.getElem?_cons_succ] at hr
      rw [ih hr]
      constructor
      · rintro ⟨x, hx⟩
        exact ⟨x, .cons h hx⟩
      · rintro ⟨x, hx⟩
        cases hx with
        | cons h' hrest' =>
          cases h.unique h'
          exact ⟨x, hrest'⟩
  | @missed i k t rest stop h hs =>
    rw [List.getElem?_map, Option.map_eq_some_iff] at hr
    obtain ⟨u, -, rfl⟩ := hr
    refine ⟨nofun, ?_⟩
    rintro ⟨x, hx⟩
    cases hx with
    | cons h' _ => exact absurd ⟨_, h'⟩ h

theorem compared (h : Outcomes m limit i targets results k) {n j : Nat} {r : CheckpointResult}
    {t : Target} (hr : results[n]? = some r) (ht : targets[n]? = some t)
    (hv : Visits m limit i ((targets.take (n + 1)).map Target.address) j) :
    r.mismatches = t.compare (m.after .execute j) := by
  induction h generalizing n with
  | done => cases hr
  | @reached i x k t rest results h hrest ih =>
    cases hv with
    | cons h' hrest' =>
      cases h.unique h'
      cases n with
      | zero =>
        cases hr
        cases ht
        cases hrest'
        rfl
      | succ n => exact ih hr ht hrest'
  | missed h _ =>
    cases hv with
    | cons h' _ => exact absurd ⟨_, h'⟩ h

/-- All that is missed is missed for the reason for which the trace is stuck. -/
theorem missed_stop (h : Outcomes m limit i targets results k)
    (hr : ∃ r ∈ results, r.reached = false) : ∃ stop, m.Stuck limit k stop ∧
      ∀ r ∈ results, r.reached = false → r.mismatches = [.notReached stop] := by
  induction h with
  | done =>
    obtain ⟨r, hr, -⟩ := hr
    cases hr
  | reached h hrest ih =>
    obtain ⟨r, hr, hf⟩ := hr
    obtain rfl | hr := List.mem_cons.1 hr
    · cases hf
    · obtain ⟨stop, hs, hall⟩ := ih ⟨r, hr, hf⟩
      refine ⟨stop, hs, fun r' hr' hf' => ?_⟩
      obtain rfl | hr' := List.mem_cons.1 hr'
      · cases hf'
      · exact hall r' hr' hf'
  | @missed i k t rest stop h hs =>
    refine ⟨stop, hs, fun r hr _ => ?_⟩
    obtain ⟨u, -, rfl⟩ := List.mem_map.1 hr
    rfl

end Outcomes

end Testcase

end LongMode

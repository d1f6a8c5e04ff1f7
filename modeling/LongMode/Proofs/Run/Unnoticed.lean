import LongMode.Proofs.Execute.Unnoticed
import LongMode.Proofs.Execute.Updates
import LongMode.Proofs.Run.Iteration
/-!
Steps and runs of a machine that has been changed in a way that instructions do not notice. A step
does the same behind the change, or it halts without and is done again behind it. A run is put
together from its first step and the run behind that step.
-/

namespace LongMode

/-- What a caller is told of two runs, the second of which went on where the first one ended. -/
def Status.followedBy (first second : Status) : Status where
  lines := first.lines ++ second.lines
  ip := second.ip
  stop := second.stop
  executed := first.executed + second.executed
  invalidOpcode := first.invalidOpcode.or second.invalidOpcode

theorem Status.followedBy_assoc (first second third : Status) :
    (first.followedBy second).followedBy third = first.followedBy (second.followedBy third) := by
  simp only [followedBy, List.append_assoc, Nat.add_assoc, Option.or_assoc]

namespace Machine

variable {lost : Halt → Prop} {g : Machine → Machine} {s : Settings} {m : Machine}

/-- Behind `g` a step does the same, unless it halts in a way that may be lost. -/
theorem step_unnoticed (hg : Unnoticed lost g) (hl : Carried lost id m.locate (g m).locate)
    (hline : s.disassemble = true → ∀ l, (g m).lineFor l = m.lineFor l) :
    (((g m).step s).machine = g (m.step s).machine ∧ ((g m).step s).event = (m.step s).event) ∨
    ∃ e, lost e ∧ (m.step s).event = .halted e := by
  cases hloc : m.locate with
  | error h =>
    obtain ⟨hev, hm⟩ := step_of_error (s := s) hloc
    obtain hgl | ⟨e, he, hm'⟩ := hl
    · left
      rw [hloc] at hgl
      obtain ⟨hev', hm'⟩ := step_of_error (s := s) hgl
      rw [hev, hev', hm, hm']
      exact ⟨rfl, rfl⟩
    · cases hloc.symm.trans hm'
      exact .inr ⟨h, he, hev⟩
  | ok l =>
    have hgl : (g m).locate = .ok l := hl.of_ok hloc
    cases hd : s.disassemble with
    | true =>
      left
      rw [step_listing hgl hd, step_listing hloc hd, hline hd l]
      exact ⟨hg.moveTo m _, rfl⟩
    | false =>
      cases hi : l.instruction with
      | none =>
        left
        rw [step_unknown hgl hd hi, step_unknown hloc hd hi, hg.ip]
        exact ⟨hg.moveTo m _, rfl⟩
      | some i =>
        have hx := (i.execute_redoable hg (frameOf s l) { m with ip := l.next }).carried
        rw [← hg.moveTo m l.next] at hx
        rw [step_execute hgl hd hi, step_execute hloc hd hi]
        obtain hsame | ⟨e, n, he, hx⟩ := hx
        · left
          rw [hsame]
          cases i.execute (frameOf s l) { m with ip := l.next } with
          | done next => exact ⟨rfl, rfl⟩
          | halted h next =>
            refine ⟨?_, rfl⟩
            dsimp only [Outcome.map]
            rw [hg.moveTo, hg.ip]
        · rw [hx]
          exact .inr ⟨e, he, rfl⟩

/-- Begun anew behind `g` from where it halted, a step is the same as begun behind `g` at once, if
the same encoding is still there. -/
theorem step_again {e : Halt} (hg : Unnoticed lost g) (hl : Carried lost id m.locate (g m).locate)
    (he : (m.step s).event = .halted e)
    (hback : (g (m.step s).machine).locate = (g m).locate) :
    (g (m.step s).machine).step s = (g m).step s := by
  cases hd : s.disassemble with
  | true =>
    obtain ⟨-, hm⟩ | ⟨l, i, n, hloc, hi, hx, hm⟩ := step_halted he
    · rw [hm]
    · rw [step_listing hloc hd] at he
      cases he
  | false =>
    obtain ⟨-, hm⟩ | ⟨l, i, n, hloc, hi, hx, hm⟩ := step_halted he
    · rw [hm]
    · have hgl : (g m).locate = .ok l := hl.of_ok hloc
      have hagain := (i.execute_redoable hg (frameOf s l) { m with ip := l.next }).again e n hx
      have hip : n.ip = l.next := (Instruction.execute_halted_updates hx).ip
      have hn : ({ n with ip := l.next } : Machine) = n := by rw [← hip]
      rw [← hg.moveTo m l.next] at hagain
      rw [hm] at hback ⊢
      rw [step_execute (hback.trans hgl) hd hi, step_execute hgl hd hi, hg.moveTo]
      dsimp only
      rw [hn, hagain, hg.ip, hg.ip]

/-! The record of a run does not steer it. -/

/-- The run that comes from a run that has recorded `p` and is at `m`. -/
theorem runOn_record (s : Settings) (budget : Nat) (m : Machine) (p : Progress) :
    (runOn s budget m p).machine = (runOn s budget m {}).machine ∧
    (runOn s budget m p).status =
      (Run.mk m .step p).status.followedBy (runOn s budget m {}).status := by
  have hone (m n : Machine) (one : Step) (stop : StopReason) (p : Progress) :
      (Run.mk n stop (p.after one)).status =
        (Run.mk m .step p).status.followedBy (Run.mk n stop (Progress.after {} one)).status := by
    rw [Progress.after_eq p]
    simp [Run.status, Status.followedBy]
  induction budget generalizing m p with
  | zero => simp [runOn, Run.status, Status.followedBy]
  | succ budget ih =>
    rw [runOn_succ, runOn_succ]
    split_ifs
    · exact ⟨rfl, hone _ _ _ _ p⟩
    · exact ⟨rfl, hone _ _ _ _ p⟩
    · exact ⟨rfl, hone _ _ _ _ p⟩
    · obtain ⟨hm, hs⟩ := ih (m.step s).machine (p.after (m.step s))
      obtain ⟨hm', hs'⟩ := ih (m.step s).machine (Progress.after {} (m.step s))
      rw [hm, hm', hs, hs', hone m, Status.followedBy_assoc]
      exact ⟨rfl, rfl⟩
    · simp [Run.status, Status.followedBy]

theorem runFor_halted {limit : Nat} (h : (m.run s true).stop ≠ .step) :
    m.runFor s limit = m.run s true := by
  have hmax : max limit 1 = (max limit 1 - 1) + 1 := by omega
  change runOn s (max limit 1) m {} = runOn s 1 m {}
  rw [hmax, runOn_succ, runOn_succ]
  by_cases hc : m.inCode = true
  · rw [run_single_stop hc] at h
    rw [if_pos hc, if_pos hc, if_pos h, if_pos h]
  · rw [if_neg hc, if_neg hc]

/-- A run whose first step completes and which has budget left. -/
theorem runFor_completed {limit : Nat} (hl : 1 ≤ limit) (h : (m.run s true).stop = .step) :
    ((m.run s true).machine.pauses s = true ∧
      (m.runFor s (limit + 1)).machine = (m.run s true).machine ∧
      (m.runFor s (limit + 1)).status = { (m.run s true).status with
        stop := .breakpoint (m.run s true).machine.ip }) ∨
    ((m.run s true).machine.pauses s = false ∧
      (m.runFor s (limit + 1)).machine = ((m.run s true).machine.runFor s limit).machine ∧
      (m.runFor s (limit + 1)).status =
        (m.run s true).status.followedBy ((m.run s true).machine.runFor s limit).status) := by
  have hc : m.inCode = true := inCode_of_stop (by rw [h]; nofun)
  have hrun : m.run s true = ⟨(m.step s).machine, .step, Progress.after {} (m.step s)⟩ := by
    rw [run_single, if_pos hc, ← run_single_stop hc, h]
  have hstep : (m.step s).event.stop = .step := (run_single_stop hc).symm.trans h
  have hfor : m.runFor s (limit + 1) = runOn s (limit + 1) m {} := by
    unfold runFor
    rw [Nat.max_eq_left (by omega)]
  have hrest : (m.step s).machine.runFor s limit = runOn s limit (m.step s).machine {} := by
    unfold runFor
    rw [Nat.max_eq_left hl]
  rw [hrun, hfor, runOn_succ, if_pos hc, if_neg (not_not.2 hstep), if_neg (by omega), hrest]
  cases hp : (m.step s).machine.pauses s with
  | true => exact .inl ⟨rfl, rfl, rfl⟩
  | false =>
    right
    rw [if_neg (by simp)]
    obtain ⟨hm, hs⟩ := runOn_record s limit (m.step s).machine (Progress.after {} (m.step s))
    exact ⟨rfl, hm, hs⟩

end Machine

end LongMode

import LongMode.Proofs.Execute.Updates
import LongMode.Proofs.Memory
import LongMode.Proofs.Run.Iteration
/-!
Running code leaves the memory map alone. An instruction adds written bytes and takes none away, and
it has no access to the segments, to the end of the program, to strictness or to the breakpoints. So
what is mapped stays mapped, and what is inside the program stays inside, over any run.
-/

namespace LongMode.Machine

/-- `n` has the memory map of `m` and its breakpoints. -/
structure KeepsMap (m n : Machine) : Prop where
  memory : m.memory.Grows n.memory
  breakpoints : n.breakpoints = m.breakpoints

namespace KeepsMap

variable {m n k : Machine}

theorem same (hm : n.memory = m.memory) (hb : n.breakpoints = m.breakpoints) : m.KeepsMap n :=
  ⟨hm ▸ .refl m.memory, hb⟩

theorem refl (m : Machine) : m.KeepsMap m := same rfl rfl

theorem trans (h : m.KeepsMap n) (h' : n.KeepsMap k) : m.KeepsMap k :=
  ⟨h.memory.trans h'.memory, h'.breakpoints.trans h.breakpoints⟩

theorem moveTo (h : m.KeepsMap n) (ip : UInt64) : m.KeepsMap { n with ip } :=
  ⟨h.memory, h.breakpoints⟩

theorem of_updates (h : m.Updates n) : m.KeepsMap n := by
  induction h with
  | refl => exact refl m
  | set _ _ _ ih => exact ih.trans (same rfl rfl)
  | writeWord _ _ _ _ ih => exact ih.trans ⟨.write _ _ _, rfl⟩
  | define _ _ ih => exact ih.trans (same rfl rfl)

end KeepsMap

variable {s : Settings} {m : Machine}

/-- Whether a step lists, passes over, completes or halts, it leaves the map alone. -/
theorem step_keepsMap (s : Settings) (m : Machine) : m.KeepsMap (m.step s).machine := by
  cases hl : m.locate with
  | error h =>
    rw [(step_of_error hl).2]
    exact .refl m
  | ok l =>
    have hpast : m.KeepsMap { m with ip := l.next } := (KeepsMap.refl m).moveTo l.next
    cases hd : s.disassemble with
    | true =>
      rw [step_listing hl hd]
      exact hpast
    | false =>
      cases hi : l.instruction with
      | none =>
        rw [step_unknown hl hd hi]
        exact hpast
      | some i =>
        rw [step_execute hl hd hi]
        cases hx : i.execute (frameOf s l) { m with ip := l.next } with
        | done next =>
          rcases Instruction.execute_updates hx with ⟨k, hk, rfl⟩
          exact (hpast.trans (.of_updates hk)).moveTo _
        | halted h next =>
          exact (hpast.trans (.of_updates (Instruction.execute_halted_updates hx))).moveTo _

theorem runOn_keepsMap (s : Settings) (budget : Nat) (m : Machine) (p : Progress) :
    m.KeepsMap (runOn s budget m p).machine := by
  induction budget generalizing m p with
  | zero => exact .refl m
  | succ budget ih =>
    have hstep := step_keepsMap s m
    rw [runOn_succ]
    split_ifs
    · exact hstep
    · exact hstep
    · exact hstep
    · exact hstep.trans (ih _ _)
    · exact .refl m

theorem runFor_strict (s : Settings) (m : Machine) (limit : Nat) :
    (m.runFor s limit).machine.memory.strict = m.memory.strict :=
  (runOn_keepsMap s (max limit 1) m {}).memory.strict

/-- Over any run the memory map and the breakpoints stay, no written byte is taken away, mapped
addresses stay mapped, and the same addresses lie in the program. -/
theorem runFor_keepsMap (s : Settings) (m : Machine) (limit : Nat) :
    m.KeepsMap (m.runFor s limit).machine ∧
    (∀ a, m.memory.isMapped a = true → (m.runFor s limit).machine.memory.isMapped a = true) ∧
    ∀ a, (m.runFor s limit).machine.memory.inCode a = m.memory.inCode a := by
  have h : m.KeepsMap (m.runFor s limit).machine := runOn_keepsMap s (max limit 1) m {}
  refine ⟨h, ?_, ?_⟩
  · intro a ha
    exact h.memory.isMapped ha
  · intro a
    exact h.memory.inCode a

end LongMode.Machine

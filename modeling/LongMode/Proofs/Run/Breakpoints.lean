import LongMode.Proofs.Run.Unnoticed
/-!
Breakpoints only stop runs. What a machine does step by step is the same with and without them.
-/

namespace LongMode.Machine

def withBreakpoints (breakpoints : Std.ExtTreeSet UInt64) (m : Machine) : Machine :=
  { m with breakpoints }

variable {breakpoints : Std.ExtTreeSet UInt64} {m : Machine} {n : Nat}

theorem withBreakpoints_unnoticed (breakpoints : Std.ExtTreeSet UInt64) :
    Unnoticed (fun _ => False) (withBreakpoints breakpoints) where
  registers _ := rfl
  flags _ := rfl
  ip _ := rfl
  set _ _ _ := rfl
  writeWord _ _ _ _ := rfl
  define _ _ := rfl
  moveTo _ _ := rfl
  readByte _ _ := .same rfl

theorem step_withBreakpoints (breakpoints : Std.ExtTreeSet UInt64) (m : Machine) :
    ((m.withBreakpoints breakpoints).step .execute).machine =
      (m.step .execute).machine.withBreakpoints breakpoints ∧
    ((m.withBreakpoints breakpoints).step .execute).event = (m.step .execute).event := by
  obtain h | ⟨e, he, -⟩ := step_unnoticed (withBreakpoints_unnoticed breakpoints) (m := m)
    (s := .execute) (.same rfl) (by nofun)
  · exact h
  · exact he.elim

theorem run_withBreakpoints (m : Machine) :
    ((m.withBreakpoints breakpoints).run .execute true).machine =
      (m.run .execute true).machine.withBreakpoints breakpoints ∧
    ((m.withBreakpoints breakpoints).run .execute true).stop = (m.run .execute true).stop := by
  obtain ⟨hm, he⟩ := step_withBreakpoints breakpoints m
  have hcode : (m.withBreakpoints breakpoints).inCode = m.inCode := rfl
  rw [run_single, run_single, hcode]
  split_ifs
  · exact ⟨hm, congrArg Event.stop he⟩
  · exact ⟨rfl, rfl⟩

theorem after_withBreakpoints (m : Machine) (n : Nat) :
    (m.withBreakpoints breakpoints).after .execute n =
      (m.after .execute n).withBreakpoints breakpoints := by
  induction n generalizing m with
  | zero => rfl
  | succ n ih => rw [after_succ, after_succ, (run_withBreakpoints m).1, ih]

end LongMode.Machine

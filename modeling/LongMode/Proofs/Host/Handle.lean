import LongMode.Host.Disassembler
import LongMode.Proofs.Host.Restore
import LongMode.Proofs.Run.Iteration
/-!
The work of a handle, each piece with its result and the machine it leaves at the handle. No other
handle's machine is touched.
-/

namespace LongMode

theorem Registry.machine?_register (r : Registry) (name : String) (m : Machine) (s : Settings) :
    (r.register name m s).2.machine? (r.register name m s).1.id = some m :=
  Array.getElem?_push_size

namespace Handle

variable {h : Handle} {host : Host} {m : Machine}

theorem change_eq {α : Type} (hm : host.registry.machine? h.id = some m) (f : Machine → α × Machine) :
    (h.change f).run host =
      (.ok (f m).1, ⟨(host.registry.put h.id (f m).2).release, host.log.released h⟩) :=
  hold_eq hm rfl

theorem view_eq {α : Type} (hm : host.registry.machine? h.id = some m) (look : Machine → α) :
    (h.view look).run host =
      (.ok (look m), ⟨(host.registry.put h.id m).release, host.log.released h⟩) :=
  hold_eq hm rfl

theorem tryChange_eq (hm : host.registry.machine? h.id = some m)
    (f : Machine → Except HostError Machine) :
    (h.tryChange f).run host = ((f m).map fun _ => (),
      ⟨(host.registry.put h.id ((f m).toOption.getD m)).release, host.log.released h⟩) := by
  refine hold_eq hm ?_
  cases hf : f m <;> rfl

theorem change_run {α : Type} (hm : host.registry.machine? h.id = some m) (f : Machine → α × Machine) :
    ∃ after, (h.change f).run host = (.ok (f m).1, after) ∧ host.Replaced after h.id (f m).2 :=
  ⟨_, change_eq hm f, Registry.machine?_put hm (f m).2⟩

theorem toggleBreakpoint_run (hm : host.registry.machine? h.id = some m) {a : UInt64}
    (ha : m.isBreakpoint a = false) : ∃ after, (h.toggleBreakpoint a).run host = (.ok true, after) ∧
      host.Replaced after h.id (m.setBreakpoint a) := by
  have htoggle : m.toggleBreakpoint a = (true, m.setBreakpoint a) := by
    unfold Machine.toggleBreakpoint
    rw [ha]
    rfl
  have hrun := change_run hm (·.toggleBreakpoint a)
  rw [htoggle] at hrun
  exact hrun

theorem runFor_served (s : Settings) (limit : Nat) (m : Machine) (u : Misuse) :
    (m.runFor s limit).stop ≠ .misuse u := by
  obtain ⟨k, -, hends⟩ := Machine.runOn_iterates s (max limit 1) (by omega) m {}
  exact hends.served u

/-- A run is told about and never refused. -/
theorem runFor_eq (hm : host.registry.machine? h.id = some m) (limit : Nat) :
    ∃ log, (h.runFor limit).run host = (.ok (m.runFor h.settings limit).status,
      ⟨(host.registry.put h.id (m.runFor h.settings limit).machine).release, log⟩) := by
  refine ⟨(host.log.run h.settings m (m.runFor h.settings limit)).released h, hold_eq hm ?_⟩
  dsimp only
  cases hstop : (m.runFor h.settings limit).stop with
  | misuse u => exact absurd hstop (runFor_served _ _ _ u)
  | _ => rfl

/-- A handle's run is the engine's, and is never refused. -/
theorem runFor_run (hm : host.registry.machine? h.id = some m) (limit : Nat) :
    ∃ after, (h.runFor limit).run host = (.ok (m.runFor h.settings limit).status, after) ∧
      host.Replaced after h.id (m.runFor h.settings limit).machine := by
  obtain ⟨log, hrun⟩ := runFor_eq hm limit
  exact ⟨_, hrun, Registry.machine?_put hm _⟩

end Handle

/-- A virtual machine is driven so that it executes, and starts with its program in a fresh machine. -/
theorem VirtualMachine.load_run (host : Host) (image : List UInt8) :
    ∃ v after, v.handle.settings = .execute ∧ (load image).run host = (.ok v, after) ∧
      after.registry.machine? v.handle.id = some (.ofCode image) :=
  ⟨⟨(host.registry.register "vm" (.ofCode image) .execute).1, image⟩, _, rfl, rfl,
    host.registry.machine?_register "vm" (.ofCode image) .execute⟩

namespace Disassembler

/-- What a piece of work on a listing does. -/
theorem work_run {α : Type} {d : Disassembler} {host : Host} {m : Machine}
    (hm : host.registry.machine? d.handle.id = some m) {f : Listing → Log → α × Listing × Log}
    {x : α} {listing : Listing} {log : Log} (hf : f ⟨m, d.lines⟩ host.log = (x, listing, log)) :
    (d.work f).run host = (.ok (x, { d with lines := listing.lines }),
      ⟨(host.registry.put d.handle.id listing.machine).release, log.released d.handle⟩) := by
  refine (Action.bind_run (Handle.hold_eq hm
    (?_ : _ = (Except.ok (x, listing.lines), listing.machine, log)))).trans rfl
  rw [hf]

/-- A listing that is made for a machine has the lines of the program in it. -/
theorem ofMachine_run (host : Host) (m : Machine) : ∃ d after,
    (ofMachine m).run host = (.ok d, after) ∧ d.lines = (Listing.ofMachine m).lines := by
  let h := (host.registry.register "disassembler" m .listing).1
  obtain ⟨registered, hregister, hm⟩ : ∃ registered,
      (Handle.register "disassembler" m .listing).run host = (.ok h, registered) ∧
        registered.registry.machine? h.id = some m :=
    ⟨_, rfl, host.registry.machine?_register "disassembler" m .listing⟩
  obtain ⟨after, hwork⟩ : ∃ after, (rebuild ⟨h, ∅⟩).run registered =
      (.ok ⟨h, (Listing.ofMachine m).lines⟩, after) :=
    ⟨_, (Action.bind_run (work_run hm rfl)).trans rfl⟩
  exact ⟨_, after, (Action.bind_run hregister).trans hwork, rfl⟩

end Disassembler

end LongMode

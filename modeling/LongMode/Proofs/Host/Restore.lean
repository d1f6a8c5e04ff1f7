import LongMode.Host.VirtualMachine
import LongMode.Proofs.Machine.Shape
/-!
Machines that are saved and restored. Whatever a virtual machine saved is taken over by any other as
it was, from a text of either layout; a text that is no JSON, and one that says something else than a
machine, change no machine at all.
-/

namespace LongMode

open Json

theorem Registry.machine?_put {r : Registry} {id : Nat} {old : Machine}
    (h : r.machine? id = some old) (m : Machine) (other : Nat) :
    (r.put id m).machine? other = if other = id then some m else r.machine? other := by
  cases id with
  | zero => cases h
  | succ n =>
    obtain ⟨hn, -⟩ := Array.getElem?_eq_some_iff.1 h
    cases other with
    | zero => simp [machine?]
    | succ k =>
      change (r.machines.setIfInBounds n m)[k]? = _
      rw [Array.getElem?_setIfInBounds]
      by_cases hk : n = k
      · subst hk
        simp [hn]
      · simp [hk, Ne.symm hk, machine?]

/-- Afterwards the machine is at one handle, and every other handle has the machine it had. -/
def Host.Replaced (before after : Host) (id : Nat) (m : Machine) : Prop :=
  ∀ other, after.registry.machine? other =
    if other = id then some m else before.registry.machine? other

def Host.Kept (before after : Host) : Prop :=
  ∀ id, after.registry.machine? id = before.registry.machine? id

theorem Host.Replaced.kept {before after : Host} {id : Nat} {m : Machine}
    (h : before.Replaced after id m) (hm : before.registry.machine? id = some m) :
    before.Kept after := by
  intro other
  rw [h other]
  split_ifs with heq
  · rw [heq, hm]
  · rfl

namespace Action

variable {α β : Type} {a : Action α} {next : α → Action β} {host after : Host}

theorem bind_run {x : α} (h : a.run host = (.ok x, after)) :
    (a >>= next).run host = (next x).run after := by
  change ExceptT.bindCont next (a.run host).1 (a.run host).2 = _
  rw [h]
  rfl

theorem bind_fails {e : HostError} (h : a.run host = (.error e, after)) :
    (a >>= next).run host = (.error e, after) := by
  change ExceptT.bindCont next (a.run host).1 (a.run host).2 = _
  rw [h]
  rfl

end Action

namespace Handle

variable {h : Handle} {host : Host} {m : Machine}

/-- What became of the work is told, and the engine is free afterwards. -/
theorem hold_eq {α : Type} (hm : host.registry.machine? h.id = some m)
    {work : Registry → Machine → Log → Except HostError α × Machine × Log}
    {result : Except HostError α} {held : Machine} {log : Log}
    (hwork : work (host.registry.acquire h) m host.log = (result, held, log)) :
    (h.hold work).run host =
      (result, ⟨(host.registry.put h.id held).release, log.released h⟩) := by
  refine (Action.bind_run (x := host) rfl).trans ?_
  dsimp only
  rw [hm]
  dsimp only
  rw [hwork]
  cases result <;> rfl

theorem hold_run {α : Type} (hm : host.registry.machine? h.id = some m)
    {work : Registry → Machine → Log → Except HostError α × Machine × Log}
    {result : Except HostError α} {held : Machine} {log : Log}
    (hwork : work (host.registry.acquire h) m host.log = (result, held, log)) :
    ∃ after, (h.hold work).run host = (result, after) ∧ host.Replaced after h.id held :=
  ⟨_, hold_eq hm hwork, Registry.machine?_put hm held⟩

theorem view_run {α : Type} (hm : host.registry.machine? h.id = some m) (look : Machine → α) :
    ∃ after, (h.view look).run host = (.ok (look m), after) ∧ host.Kept after := by
  obtain ⟨after, hrun, hreplaced⟩ : ∃ after, (h.view look).run host = (.ok (look m), after) ∧
    host.Replaced after h.id m := hold_run hm rfl
  exact ⟨after, hrun, hreplaced.kept hm⟩

variable {f : Machine → Except HostError Machine}

theorem tryChange_run (hm : host.registry.machine? h.id = some m) {next : Machine}
    (hf : f m = .ok next) :
    ∃ after, (h.tryChange f).run host = (.ok (), after) ∧ host.Replaced after h.id next :=
  hold_run hm (by rw [hf])

theorem tryChange_fails (hm : host.registry.machine? h.id = some m) {e : HostError}
    (hf : f m = .error e) :
    ∃ after, (h.tryChange f).run host = (.error e, after) ∧ host.Kept after := by
  obtain ⟨after, hrun, hreplaced⟩ : ∃ after, (h.tryChange f).run host = (.error e, after) ∧
    host.Replaced after h.id m := hold_run hm (by rw [hf])
  exact ⟨after, hrun, hreplaced.kept hm⟩

end Handle

namespace VirtualMachine

def take (v : VirtualMachine) (d : Document) : Action Unit :=
  v.handle.tryChange fun _ => (Machine.reader d).mapError HostError.refused

/-- What a virtual machine does with saved machines and with anything else, for the machines of a
host. -/
structure Restores (v : VirtualMachine) (host : Host) : Prop where
  /-- It takes over what another one of the host saves, in either layout. -/
  copied : ∀ (w : VirtualMachine) (m : Machine), host.registry.machine? w.handle.id = some m →
    ∀ print ∈ [Json.compact, Json.pretty],
      ∃ after, (do let saved ← w.save; v.restore (print saved)).run host = (.ok (), after) ∧
        host.Replaced after v.handle.id m
  /-- It takes over any machine that was ever saved. -/
  restored : ∀ (m : Machine), ∀ print ∈ [Json.compact, Json.pretty],
    ∃ after, (v.restore (print m.saved)).run host = (.ok (), after) ∧
      host.Replaced after v.handle.id m
  /-- From a text it takes over a machine if the text says what a machine has. -/
  shaped : ∀ text d, Machine.parse text = .ok d → Machine.HasShape d →
    ∃ m after, (v.restore text).run host = (.ok (), after) ∧ host.Replaced after v.handle.id m
  /-- A text that does not say it changes no machine. -/
  refused : ∀ text, (∀ d, Machine.parse text = .ok d → ¬ Machine.HasShape d) →
    ∃ r after, (v.restore text).run host = (.error (.refused r), after) ∧ host.Kept after
  /-- A document without flaws that does not say it changes no machine, wherever it comes from. -/
  unshaped : ∀ d : Document, d.Passable → ¬ Machine.HasShape d →
    ∃ r after, (v.take d).run host = (.error (.refused r), after) ∧ host.Kept after

variable {v : VirtualMachine} {host : Host} {old m : Machine} {text : String} {d : Document}

theorem take_run (hv : host.registry.machine? v.handle.id = some old)
    (hd : Machine.reader d = .ok m) :
    ∃ after, (v.take d).run host = (.ok (), after) ∧ host.Replaced after v.handle.id m :=
  Handle.tryChange_run hv (by rw [hd]; rfl)

theorem take_fails (hv : host.registry.machine? v.handle.id = some old)
    (h : ∀ m, Machine.reader d ≠ .ok m) :
    ∃ r after, (v.take d).run host = (.error (.refused r), after) ∧ host.Kept after := by
  cases hd : Machine.reader d with
  | ok m => exact absurd hd (h m)
  | error r => exact ⟨r, Handle.tryChange_fails hv (by rw [hd]; rfl)⟩

theorem restore_run (hv : host.registry.machine? v.handle.id = some old)
    (hparse : Machine.parse text = .ok d) (hd : Machine.reader d = .ok m) :
    ∃ after, (v.restore text).run host = (.ok (), after) ∧
      host.Replaced after v.handle.id m := by
  obtain ⟨after, hrun, hreplaced⟩ := take_run hv hd
  unfold restore
  rw [hparse]
  -- what is still to come only adds to the log
  exact ⟨_, Action.bind_run hrun, hreplaced⟩

theorem restore_fails (hv : host.registry.machine? v.handle.id = some old)
    (h : ∀ d m, Machine.parse text = .ok d → Machine.reader d ≠ .ok m) :
    ∃ r after, (v.restore text).run host = (.error (.refused r), after) ∧ host.Kept after := by
  unfold restore
  cases hparse : Machine.parse text with
  | error r => exact ⟨r, host, rfl, fun _ => rfl⟩
  | ok d =>
    obtain ⟨r, after, hrun, hkept⟩ := take_fails hv fun m => h d m hparse
    exact ⟨r, after, Action.bind_fails hrun, hkept⟩

theorem restore_saved (hv : host.registry.machine? v.handle.id = some old) (m : Machine)
    {print : Json → String} (hprint : print ∈ [Json.compact, Json.pretty]) :
    ∃ after, (v.restore (print m.saved)).run host = (.ok (), after) ∧
      host.Replaced after v.handle.id m := by
  have hparse : Machine.parse (print m.saved) = .ok m.saved.document := by
    rw [List.mem_pair] at hprint
    obtain rfl | rfl := hprint
    · exact m.parse_compact
    · exact m.parse_pretty
  exact restore_run hv hparse m.reader_saved

/-- A virtual machine takes over saved machines as they were, and anything else changes nothing. -/
theorem restores (hv : host.registry.machine? v.handle.id = some old) : v.Restores host where
  copied w m hw print hprint := by
    obtain ⟨between, hsave, hkept⟩ := Handle.view_run hw (·.saved)
    obtain ⟨after, hrun, hreplaced⟩ := restore_saved ((hkept v.handle.id).trans hv) m hprint
    refine ⟨after, (Action.bind_run hsave).trans hrun, fun other => ?_⟩
    rw [hreplaced other, hkept other]
  restored m print hprint := restore_saved hv m hprint
  shaped text d hparse hshape := by
    obtain ⟨m, hm⟩ := (Machine.reader_takes d (Machine.passable_of_parse hparse)).2 hshape
    exact ⟨m, restore_run hv hparse hm⟩
  refused text htext := by
    refine restore_fails hv fun d m hparse hm => htext d hparse ?_
    exact (Machine.reader_takes d (Machine.passable_of_parse hparse)).1 ⟨m, hm⟩
  unshaped d hpass hshape :=
    take_fails hv fun m hm => hshape ((Machine.reader_takes d hpass).1 ⟨m, hm⟩)

/-- Two machines: a fresh one, and one with undefined flags, a breakpoint and a byte at the last
address of strict memory. -/
def freshAndMarked : Host :=
  let fresh : Machine := .ofCode []
  let marked := { (fresh.write 0xFFFF_FFFF_FFFF_FFFF [7]).setStrict true with flags := .undefined }
  { registry := ⟨#[fresh, marked.setBreakpoint 0], none⟩ }

/-- The fresh machine becomes the marked one, and null is no machine. -/
theorem freshAndMarked_restores :
    let v : VirtualMachine := ⟨⟨"fresh", 1, .execute⟩, []⟩
    let w : VirtualMachine := ⟨⟨"marked", 2, .execute⟩, []⟩
    freshAndMarked.registry.machine? 1 = some (.ofCode []) ∧
      (∃ after, (do let saved ← w.save; v.restore saved.pretty).run freshAndMarked =
          (.ok (), after) ∧
        after.registry.machine? 1 = freshAndMarked.registry.machine? 2) ∧
      ∃ r after, (v.restore Json.null.compact).run freshAndMarked = (.error (.refused r), after) ∧
        freshAndMarked.Kept after := by
  intro v w
  have hrestores : v.Restores freshAndMarked := restores rfl
  obtain ⟨after, hrun, hreplaced⟩ := hrestores.copied w _ rfl Json.pretty (by simp)
  refine ⟨rfl, ⟨after, hrun, (hreplaced 1).trans rfl⟩, hrestores.refused _ fun d hd hshape => ?_⟩
  have hnull : Machine.parse Json.null.compact = .ok .null := readText_compact (.null (n := 0)) _
  obtain rfl : Document.null = d := Except.ok.inj (hnull.symm.trans hd)
  cases hshape

end VirtualMachine

end LongMode

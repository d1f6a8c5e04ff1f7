import LongMode.Json.Quoted
import LongMode.Log.Run
import LongMode.Registry
/-!
Actions of a host program: work on registered machines, with a log kept of it. An action that fails
keeps what it did before it failed.
-/

namespace LongMode

inductive HostError where
  | unknownHandle (id : Nat)
  | unknownRegister (name : String)
  /-- The engine was asked for something it cannot serve. -/
  | misuse (u : Misuse)
  /-- A saved machine was not one. -/
  | refused (r : Json.Refusal)
deriving DecidableEq, Repr

structure Host where
  registry : Registry := .empty
  log : Log := {}

def Log.released (log : Log) (h : Handle) : Log :=
  log.write .registry .trace fun _ => "Handle " ++ handleText h.id ++ " released the engine"

abbrev Action (α : Type) := ExceptT HostError (StateM Host) α

namespace Action

def fail {α : Type} (e : HostError) : Action α := throw e

def write (category : Category) (level : Level) (text : Unit → String) : Action Unit :=
  modify fun host => { host with log := host.log.write category level text }

end Action

namespace Handle

def register (name : String) (m : Machine) (settings : Settings) : Action Handle := do
  let host ← get
  let (handle, registry) := host.registry.register name m settings
  set { host with registry }
  Action.write .registry .debug fun _ =>
    "Registered handle '" ++ name ++ "' as " ++ handleText handle.id ++ " (" ++
      settings.describe ++ ")"
  return handle

/-- Work on the machine of a handle, which holds the engine meanwhile and lets go of it afterwards
even if the work fails. The work may look at the registry and add to the log. -/
def hold {α : Type} (h : Handle)
    (work : Registry → Machine → Log → Except HostError α × Machine × Log) : Action α := do
  let host ← get
  match host.registry.machine? h.id with
  | none => Action.fail (.unknownHandle h.id)
  | some m =>
    let held := host.registry.acquire h
    let (result, after, log) := work held m host.log
    set ({ registry := (held.put h.id after).release, log := log.released h } : Host)
    liftExcept result
where
  liftExcept {α : Type} : Except HostError α → Action α
    | .ok x => pure x
    | .error e => Action.fail e

def view {α : Type} (h : Handle) (look : Machine → α) : Action α :=
  h.hold fun _ m log => (.ok (look m), m, log)

def change {α : Type} (h : Handle) (f : Machine → α × Machine) : Action α :=
  h.hold fun _ m log =>
    let (x, after) := f m
    (.ok x, after, log)

/-- A change of the machine that may fail, and then does not take place. -/
def tryChange (h : Handle) (f : Machine → Except HostError Machine) : Action Unit :=
  h.hold fun _ m log =>
    match f m with
    | .ok after => (.ok (), after, log)
    | .error e => (.error e, m, log)

def isBusy (h : Handle) : Action Bool := do
  let host ← get
  return host.registry.isBusy h

def machine (h : Handle) : Action Machine := h.view fun m => m

def replace (h : Handle) (m : Machine) : Action Unit := h.change fun _ => ((), m)

def runFor (h : Handle) (budget : Nat) : Action Status :=
  h.hold fun _ m log =>
    let r := m.runFor h.settings budget
    let result : Except HostError Status := match r.stop with
      | .misuse u => .error (.misuse u)
      | _ => .ok r.status
    (result, r.machine, log.run h.settings m r)

/-- One step, or a run without a budget. -/
def run (h : Handle) (single : Bool) : Action Status :=
  h.runFor (if single then 1 else Machine.unlimited)

def toggleBreakpoint (h : Handle) (a : UInt64) : Action Bool := h.change (·.toggleBreakpoint a)

def breakpoints (h : Handle) : Action (List UInt64) := h.view (·.breakpoints.toList)

def setStrict (h : Handle) (strict : Bool) : Action Unit :=
  h.change fun m => ((), m.setStrict strict)

end Handle

end LongMode

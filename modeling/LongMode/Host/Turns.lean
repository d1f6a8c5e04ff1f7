import LongMode.Host.Basic
import LongMode.Machine.Json
/-!
Handles used side by side. Calls on any handles may be made at any time, also while another one is
being served: a call waits until no handle holds the engine, holds it while it is served, and lets go
of it however it ends. Which of the waiting calls comes next is not said.
-/

namespace LongMode

inductive Job (α : Type) where
  | run (single : Bool)
  | runFor (budget : Nat)
  /-- A run that somebody else waits for. -/
  | runAsync (single : Bool)
  /-- Work of the caller's own, which may break off and keeps what it has done by then. -/
  | invoke (body : Machine → Option α × Machine)
  | copy
  | toggleBreakpoint (address : UInt64)
  | restore (saved : Json.Document)

inductive Answer (α : Type) where
  | status (s : Status)
  /-- None of work that broke off. -/
  | value (x : Option α)
  | machine (m : Machine)
  | marked (isSet : Bool)
  | restored

structure Call (α : Type) where
  handle : Handle
  job : Job α

variable {α : Type}

def Job.action (h : Handle) : Job α → Action (Answer α)
  | run single => .status <$> h.run single
  | runFor budget => .status <$> h.runFor budget
  | runAsync single => .status <$> h.run single
  | invoke body => .value <$> h.change body
  | copy => .machine <$> h.machine
  | toggleBreakpoint address => .marked <$> h.toggleBreakpoint address
  | restore saved =>
    (fun _ => .restored) <$>
      h.tryChange fun _ => (Machine.reader saved).mapError HostError.refused

structure Turns (α : Type) where
  host : Host := {}
  /-- The handles given out, with the machines registered under them, in order. -/
  registered : List (Handle × Machine) := []
  /-- The calls that have not been served, in the order in which they were made. -/
  waiting : List (Call α) := []
  /-- The call that is being served. -/
  working : Option (Call α) := none
  /-- The calls that have been served, in order, with what became of them. -/
  finished : List (Call α × Except HostError (Answer α)) := []

inductive Move (α : Type) where
  | register (name : String) (m : Machine) (settings : Settings)
  | ask (call : Call α)
  /-- The waiting call at a position takes hold of the engine. -/
  | enter (i : Nat)
  /-- The call that holds the engine is served. -/
  | finish

namespace Turns

/-- A move made, if it can be: only the handles given out can be asked, and nobody takes hold of the
engine while it is held. -/
def step? (t : Turns α) : Move α → Option (Turns α)
  | .register name m settings =>
    match (Handle.register name m settings).run t.host with
    | (.ok h, host) => some { t with host, registered := t.registered ++ [(h, m)] }
    | (.error _, _) => none
  | .ask call =>
    if call.handle ∈ t.registered.map Prod.fst then some { t with waiting := t.waiting ++ [call] }
    else none
  | .enter i =>
    match t.host.registry.owner, t.waiting[i]? with
    | none, some call =>
      some { t with
        host := { t.host with registry := t.host.registry.acquire call.handle }
        waiting := t.waiting.eraseIdx i
        working := some call }
    | _, _ => none
  | .finish =>
    match t.working with
    | some call =>
      let (result, host) := (call.job.action call.handle).run t.host
      some { t with host, working := none, finished := t.finished ++ [(call, result)] }
    | none => none

def play (t : Turns α) : List (Move α) → Option (Turns α)
  | [] => some t
  | move :: moves => (t.step? move).bind (·.play moves)

/-- What was asked of a handle and has been served, in order. -/
def jobs (t : Turns α) (h : Handle) : List (Job α) :=
  (t.finished.filter (·.1.handle = h)).map (·.1.job)

def results (t : Turns α) (h : Handle) : List (Except HostError (Answer α)) :=
  (t.finished.filter (·.1.handle = h)).map (·.2)

end Turns

/-- Jobs asked of one handle one after another, each whatever became of the one before. -/
def Handle.perform (h : Handle) (jobs : List (Job α)) :
    Action (List (Except HostError (Answer α))) :=
  jobs.mapM fun job => observing (job.action h)

end LongMode

import LongMode.Host.Basic
import LongMode.Machine.Json
import LongMode.Register.Name
/-!
Virtual machines: a program, and the registered machine that runs it. The program can be started
over from the image it was loaded from.
-/

namespace LongMode

structure VirtualMachine where
  handle : Handle
  /-- The program as it was loaded. -/
  image : List UInt8

def registerNamed (name : String) : Except HostError Register :=
  match Register.ofName? name with
  | some r => .ok r
  | none => .error (.unknownRegister name)

namespace VirtualMachine

def load (image : List UInt8) : Action VirtualMachine := do
  let handle ← Handle.register "vm" (.ofCode image) .execute
  return { handle, image }

/-- The image in a fresh machine that keeps strictness and breakpoints. -/
def fresh (image : List UInt8) (old : Machine) : Machine :=
  { (Machine.ofCode image).setStrict old.memory.strict with breakpoints := old.breakpoints }

def reset (v : VirtualMachine) : Action Unit := do
  v.handle.change fun m => ((), fresh v.image m)
  Action.write .memory .debug fun _ =>
    "Flashed " ++ toString v.image.length ++ " bytes into " ++ v.handle.name

def flash (v : VirtualMachine) (image : List UInt8) : Action VirtualMachine := do
  let v := { v with image }
  v.reset
  return v

def register (v : VirtualMachine) (name : String) : Action UInt64 := do
  match registerNamed name with
  | .ok r => v.handle.view (·.get r)
  | .error e => Action.fail e

def setRegister (v : VirtualMachine) (name : String) (value : UInt64) : Action Unit := do
  match registerNamed name with
  | .ok r => v.handle.change fun m => ((), m.set r value)
  | .error e => Action.fail e

def save (v : VirtualMachine) : Action Json := v.handle.view (·.saved)

def restore (v : VirtualMachine) (text : String) : Action Unit := do
  match Machine.parse text with
  | .error r => Action.fail (.refused r)
  | .ok saved =>
    v.handle.tryChange fun _ => (Machine.reader saved).mapError HostError.refused
    Action.write .memory .debug fun _ => "Loaded saved state into " ++ v.handle.name

end VirtualMachine

end LongMode

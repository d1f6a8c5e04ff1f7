import LongMode.Json.Quoted
import LongMode.Register.Name
import LongMode.Run
/-!
Testcases: a program, and what the machine should look like when it comes to certain addresses.
-/

namespace LongMode

inductive Code where
  /-- Hexadecimal text. -/
  | text (s : String)
  | bytes (bs : List UInt8)
deriving DecidableEq, Repr

structure MemoryExpectation where
  address : UInt64
  bytes : Code
deriving DecidableEq, Repr

/-- The expected state of the machine when it comes to an address. What is not listed is not
checked. -/
structure Checkpoint where
  address : UInt64
  /-- Values by register name, in the order of the names. -/
  registers : List (String × UInt64)
  memory : List MemoryExpectation
  flags : Flags
deriving DecidableEq, Repr

structure Testcase where
  name : String
  code : Code
  checkpoints : List Checkpoint
deriving DecidableEq, Repr

inductive TestcaseError where
  | refused (r : Json.Refusal)
  | numeral (e : NumeralError)
  | noCode (name : String)
  | noCheckpoints (name : String)
  | unknownRegister (name : String)
deriving DecidableEq, Repr

def TestcaseError.message : TestcaseError → String
  | refused r => "Malformed JSON: " ++ r.message
  | numeral e => e.message
  | noCode name => "Invalid testcase: '" ++ name ++ "' has no code"
  | noCheckpoints name => "Invalid testcase: '" ++ name ++ "' has no checkpoints"
  | unknownRegister name => "Unknown register: " ++ name

def Code.read : Code → Except TestcaseError (List UInt8)
  | text s => (Numeral.readCode s.toList).mapError .numeral
  | bytes bs => .ok bs

namespace Testcase

def checkMemory : List MemoryExpectation → Except TestcaseError Unit
  | [] => .ok ()
  | e :: rest => do
    let _ ← e.bytes.read
    checkMemory rest

def checkCheckpoints : List Checkpoint → Except TestcaseError Unit
  | [] => .ok ()
  | c :: rest => do
    checkMemory c.memory
    checkCheckpoints rest

/-- Refuses testcases that could never pass. -/
def validate (t : Testcase) : Except TestcaseError Unit := do
  let code ← t.code.read
  if code.isEmpty then .error (.noCode t.name)
  else if t.checkpoints.isEmpty then .error (.noCheckpoints t.name)
  else checkCheckpoints t.checkpoints

end Testcase

end LongMode

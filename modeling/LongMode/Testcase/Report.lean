import LongMode.Run.Json
import LongMode.Testcase.Json
import LongMode.Testcase.Run
/-!
Test reports as JSON.
-/

namespace LongMode

def bytesJson (bytes : List UInt8) : Json := Json.ofList (fun b => .number b.toNat) bytes

def Mismatch.toJson : Mismatch → Json
  | register name expected actual =>
    .tagged "Register"
      (.object
        [("name", .text name), ("expected", .number expected.toNat),
          ("actual", .number actual.toNat)])
  | memory address expected actual =>
    .tagged "Memory"
      (.object
        [("address", .number address.toNat), ("expected", bytesJson expected),
          ("actual", bytesJson actual)])
  | flags expected actual =>
    .tagged "Flags" (.object [("expected", expected.toJson), ("actual", actual.toJson)])
  | notReached stop => .tagged "NotReached" (.object [("stop", stop.toJson)])

def CheckpointResult.toJson (r : CheckpointResult) : Json :=
  .object
    [("address", .number r.address.toNat), ("reached", .bool r.reached),
      ("mismatches", Json.ofList Mismatch.toJson r.mismatches)]

def TestReport.toJson (r : TestReport) : Json :=
  .object
    [("name", .text r.name), ("checkpoints", Json.ofList CheckpointResult.toJson r.checkpoints),
      ("executed", .number r.executed)]

end LongMode

import LongMode.Host.Basic
import LongMode.Testcase.Run
/-!
Testcases on registered machines.
-/

namespace LongMode

namespace Testcase

def logEvent (name : String) (h : Handle) (event : Event) (log : Log) : Log :=
  let released (log : Log) : Log := log.released h
  match event with
  | .ran m r => released (log.run h.settings m r)
  | .missed address stop =>
    log.write .harness .info fun _ =>
      name ++ ": checkpoint " ++ Digits.prefixedHex address.toNat ++ " not reached (" ++
        stop.describe ++ ")"
  | .reached address mismatches =>
    (released log).write .harness .debug fun _ =>
      name ++ ": checkpoint " ++ Digits.prefixedHex address.toNat ++ " " ++
        toString mismatches.length ++ " mismatches"

def runRegistered (limit : Nat) (t : Testcase) : Action (Except TestcaseError TestReport) := do
  match t.prepare with
  | .error e => return .error e
  | .ok (m, targets) =>
    let h ← Handle.register ("test:" ++ t.name) m .execute
    let host ← get
    let (r, j) := report (logEvent t.name h) limit t.name m targets host.log
    set ({ registry := host.registry.put h.id j.machine, log := j.seen } : Host)
    Action.write .harness .info fun _ =>
      t.name ++ ": " ++ (if r.passed then "passed" else "FAILED")
    return .ok r

end Testcase

end LongMode

import LongMode.Proofs.CommandLine.Run
import LongMode.Proofs.Run.Budget
import LongMode.Proofs.Run.MemoryMap
/-!
Budgets asked for of a handle and on the command line. Both are the engine's: a handle is told what the
engine is told, and so is whoever reads what a command line prints and saves. A run that is cut in two
by saving the machine and going on from it is a run of the engine cut in two.
-/

namespace LongMode

namespace Handle

/-- The runs of a handle, one alone and two after one another, are those of the engine. -/
structure Runs (h : Handle) (host : Host) (m : Machine) : Prop where
  once : ∀ limit, ∃ after,
    (h.runFor limit).run host = (.ok (m.runFor h.settings limit).status, after) ∧
      host.Replaced after h.id (m.runFor h.settings limit).machine
  twice : ∀ a b, ∃ after,
    (do let first ← h.runFor a
        let second ← h.runFor b
        return (first, second)).run host =
      (.ok ((m.runFor h.settings a).status,
        ((m.runFor h.settings a).machine.runFor h.settings b).status), after) ∧
      host.Replaced after h.id ((m.runFor h.settings a).machine.runFor h.settings b).machine

theorem runs_of_machine {h : Handle} {host : Host} {m : Machine}
    (hm : host.registry.machine? h.id = some m) : h.Runs host m where
  once := runFor_run hm
  twice a b := by
    rcases runFor_run hm a with ⟨between, hfirst, hbetween⟩
    have hn : between.registry.machine? h.id = some (m.runFor h.settings a).machine := by
      rw [hbetween, if_pos rfl]
    rcases runFor_run hn b with ⟨after, hsecond, hafter⟩
    refine ⟨after, ?_, ?_⟩
    · rw [Action.bind_run hfirst, Action.bind_run hsecond]
      rfl
    · intro other
      rw [hafter, hbetween]
      split_ifs <;> rfl

end Handle

namespace CommandLine.RunLine

variable {defaultFile : String} {args args' args'' : List String} {files between : Files}
  {m : Machine}

/-- Two command lines in the place of one: the first one saves the machine, the second one goes on from
it with the rest of the steps, under the same strictness and without breakpoints of its own. -/
structure Halves (c : RunLine defaultFile args files) (first : RunLine defaultFile args' files)
    (second : RunLine defaultFile args'' between) (m : Machine) (handed last : String) : Prop where
  starts : c.Starts m
  firstStarts : first.Starts m
  prepared : first.prepared m = c.prepared m
  steps : c.budget = first.budget + second.budget
  saved : first.save = some handed
  loaded : second.load = some handed
  left : (outcome defaultFile args' files).files = between
  strict : (second.strict || second.settings.strictMemory) =
    (first.strict || first.settings.strictMemory)
  unmarked : second.addresses = []
  save : c.save = some last
  secondSave : second.save = some last

/-- What a command line leaves in the file that it saves the machine in. -/
theorem read_saved {c : RunLine defaultFile args files} {name : String} (hsave : c.save = some name)
    (hstart : c.Starts m) : (outcome defaultFile args files).files.read (.ofText name) =
      .ok (c.ran m).machine.savedBytes := by
  rcases outcome_run hstart with ⟨-, -, hsaves⟩
  unfold Saves at hsaves
  rw [hsave] at hsaves
  exact Files.read_write hsaves

variable {c : RunLine defaultFile args files} {first : RunLine defaultFile args' files}
  {second : RunLine defaultFile args'' between} {handed last : String}

theorem Halves.second_starts (h : Halves c first second m handed last) :
    second.Starts (first.ran m).machine := by
  have hread := read_saved h.saved h.firstStarts
  rw [h.left] at hread
  unfold Starts
  rw [h.loaded]
  exact hread

theorem Halves.second_ran (h : Halves c first second m handed last) :
    second.ran (first.ran m).machine = (first.ran m).machine.runFor .execute second.budget := by
  have hstrict : (first.ran m).machine.memory.strict =
      (first.strict || first.settings.strictMemory) :=
    Machine.runFor_strict _ (first.prepared m) _
  have hprepared : second.prepared (first.ran m).machine = (first.ran m).machine := by
    unfold RunLine.prepared
    rw [h.unmarked, h.strict, ← hstrict, Std.ExtTreeSet.insertMany_nil]
    rfl
  exact congrArg (·.runFor .execute second.budget) hprepared

theorem Halves.splits_iff (h : Halves c first second m handed last) :
    ((outcome defaultFile args'' between).files.read (.ofText last) =
        (outcome defaultFile args files).files.read (.ofText last) ∧
      (first.ran m).status.executed + (second.ran (first.ran m).machine).status.executed =
        (c.ran m).status.executed) ↔
      (c.prepared m).Splits .execute first.budget second.budget := by
  have hran : c.ran m = (c.prepared m).runFor .execute (first.budget + second.budget) := by
    rw [← h.steps]
    rfl
  have hfirst : first.ran m = (c.prepared m).runFor .execute first.budget := by
    rw [← h.prepared]
    rfl
  rw [read_saved h.secondSave h.second_starts, read_saved h.save h.starts, h.second_ran, hran, hfirst]
  unfold Machine.Splits
  constructor
  · rintro ⟨hsame, hcount⟩
    exact ⟨Machine.savedBytes_injective (Except.ok.inj hsame), hcount⟩
  · rintro ⟨hsame, hcount⟩
    rw [hsame]
    exact ⟨rfl, hcount⟩

/-- What budgets come to that a machine is run with: by the engine, by a handle, by a command line, and
by two command lines in the place of one. -/
theorem budgets_spent (s : Settings) (m : Machine) :
    m.Budgeted s ∧
    (∀ (h : Handle) (host : Host), host.registry.machine? h.id = some m → h.Runs host m) ∧
    (∀ (defaultFile : String) (args : List String) (files : Files)
      (c : RunLine defaultFile args files), c.Starts m →
      (outcome defaultFile args files).exit = 0 ∧
      (outcome defaultFile args files).output =
        String.join ((stateLines (c.ran m).machine (c.ran m).status).flatMap fun line => [line, "\n"]) ∧
      c.Saves (c.ran m).machine (outcome defaultFile args files).files) ∧
    ∀ (defaultFile : String) (args args' args'' : List String) (files between : Files)
      (c : RunLine defaultFile args files) (first : RunLine defaultFile args' files)
      (second : RunLine defaultFile args'' between) (handed last : String),
      Halves c first second m handed last →
      (((outcome defaultFile args'' between).files.read (.ofText last) =
          (outcome defaultFile args files).files.read (.ofText last) ∧
        (first.ran m).status.executed + (second.ran (first.ran m).machine).status.executed =
          (c.ran m).status.executed) ↔
        (c.prepared m).Splits .execute first.budget second.budget) := by
  refine ⟨Machine.budgeted s m, ?_, ?_, ?_⟩
  · intro h host hm
    exact Handle.runs_of_machine hm
  · intro defaultFile args files c hstart
    exact outcome_run hstart
  · intro defaultFile args args' args'' files between c first second handed last h
    exact h.splits_iff

def nops : Machine := .ofCode [0x90, 0x90]

def nopFiles : Files := ⟨[(⟨.above 0, ["p.bin"]⟩, .file [0x90, 0x90])]⟩

def stepArguments : List String := ["run", "p.bin", "--steps", "1", "--save", "t.json"]

def pauseArguments : List String := ["run", "p.bin", "--steps", "0", "--save", "s.json"]

def proceedArguments : List String :=
  ["run", "p.bin", "--load", "s.json", "--steps", "1", "--save", "t.json"]

def stepLine : RunLine "x64emu.json" stepArguments nopFiles :=
  .plain 1 none [0x90, 0x90] "t.json" ⟨.above 0, ["t.json"]⟩ (by rfl)
    (by decide +kernel) (by decide +kernel) (by decide +kernel)

def pauseLine : RunLine "x64emu.json" pauseArguments nopFiles :=
  .plain 0 none [0x90, 0x90] "s.json" ⟨.above 0, ["s.json"]⟩ (by rfl)
    (by decide +kernel) (by decide +kernel) (by decide +kernel)

def pausedFiles : Files :=
  nopFiles.put ⟨.above 0, ["s.json"]⟩ (pauseLine.ran nops).machine.savedBytes

def proceedLine : RunLine "x64emu.json" proceedArguments pausedFiles :=
  .plain 1 (some "s.json") [0x90, 0x90] "t.json" ⟨.above 0, ["t.json"]⟩ (by rfl)
    (by decide +kernel) (by decide +kernel) (by decide +kernel)

theorem nops_halves : Halves stepLine pauseLine proceedLine nops "s.json" "t.json" where
  starts := rfl
  firstStarts := rfl
  prepared := by
    let plain := (nops.setStrict false).withBreakpoints (nops.breakpoints.insertMany [])
    have hpause : pauseLine.prepared nops = plain := rfl
    have hstep : stepLine.prepared nops = plain := rfl
    rw [hpause, hstep]
  steps := show 1 = 0 + 1 from rfl
  saved := rfl
  loaded := rfl
  left := by
    have hstart : pauseLine.Starts nops := rfl
    have hsaves := (outcome_run hstart).2.2
    have htarget : nopFiles.target (.ofText "s.json") = .ok ⟨.above 0, ["s.json"]⟩ := by
      decide +kernel
    have hwrite := Files.write_of_target htarget (pauseLine.ran nops).machine.savedBytes
    exact (Except.ok.inj (hwrite.symm.trans hsaves)).symm
  strict := show (false || false) = (false || false) from rfl
  unmarked := rfl
  save := rfl
  secondSave := rfl

/-- A budget of none is overspent, and a run in two halves, one of which has no budget, goes on for too
long. -/
theorem nops_budgets : ¬ (nops.runFor .execute 0).status.executed ≤ 0 ∧
    (pauseLine.ran nops).status.executed = 1 ∧ pauseLine.budget = 0 ∧
    ¬ ((outcome "x64emu.json" proceedArguments pausedFiles).files.read (.ofText "t.json") =
        (outcome "x64emu.json" stepArguments nopFiles).files.read (.ofText "t.json") ∧
      (pauseLine.ran nops).status.executed +
        (proceedLine.ran (pauseLine.ran nops).machine).status.executed =
          (stepLine.ran nops).status.executed) := by
  rcases budgets_spent .execute nops with ⟨hengine, -, -, hhalves⟩
  refine ⟨?_, by rfl, by rfl, ?_⟩
  · intro hle
    rcases (hengine.within 0).1 hle with hbudget | hstop
    · cases hbudget
    · exact hstop (by rfl)
  · rw [hhalves _ _ _ _ _ _ _ _ _ _ _ nops_halves]
    rintro ⟨-, hcount⟩
    have hfirst : ((stepLine.prepared nops).runFor .execute pauseLine.budget).status.executed = 1 := by
      rfl
    have hsecond : (((stepLine.prepared nops).runFor .execute pauseLine.budget).machine.runFor .execute
        proceedLine.budget).status.executed = 1 := by rfl
    have hwhole : ((stepLine.prepared nops).runFor .execute
        (pauseLine.budget + proceedLine.budget)).status.executed = 1 := by rfl
    rw [hfirst, hsecond, hwhole] at hcount
    cases hcount

end CommandLine.RunLine

end LongMode

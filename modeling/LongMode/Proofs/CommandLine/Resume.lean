import LongMode.Proofs.CommandLine.Run
import LongMode.Proofs.Run.MemoryMap
/-!
Runs that go on from a saved machine. The command line keeps everything of the saved machine and adds
its breakpoints, with one exception: whether memory is strict is what the command line and the settings
say, whatever was saved.
-/

namespace LongMode

theorem Machine.setStrict_self (m : Machine) : m.setStrict m.memory.strict = m := rfl

namespace CommandLine.RunLine

variable {defaultFile : String} {args : List String} {files : Files} {m : Machine}

/-- The run of the saved machine as it was saved, with more breakpoints. -/
def resumed (c : RunLine defaultFile args files) (m : Machine) : Run :=
  (m.withBreakpoints (m.breakpoints.insertMany c.addresses)).runFor .execute c.budget

theorem ran_eq_resumed_iff (c : RunLine defaultFile args files) (m : Machine) :
    (c.ran m).machine = (c.resumed m).machine ↔
      (c.strict || c.settings.strictMemory) = m.memory.strict := by
  constructor
  · intro h
    have hran : (c.ran m).machine.memory.strict = (c.strict || c.settings.strictMemory) :=
      Machine.runFor_strict _ (c.prepared m) _
    have hresumed : (c.resumed m).machine.memory.strict = m.memory.strict :=
      Machine.runFor_strict _ (m.withBreakpoints _) _
    rw [← hran, h, hresumed]
  · intro h
    unfold ran prepared
    rw [h, m.setStrict_self]
    rfl

/-- A run that goes on from a saved machine saves what the run of that machine comes to in memory as
strict as the command line and the settings say. This is what the machine comes to as it was saved
exactly if its memory was as strict. -/
theorem saves_resumed_iff (c : RunLine defaultFile args files) {load save : String}
    (hload : c.load = some load) (hsave : c.save = some save)
    (hread : files.read (.ofText load) = .ok m.savedBytes) :
    (outcome defaultFile args files).exit = 0 ∧
    (outcome defaultFile args files).files.read (.ofText save) =
      .ok (c.ran m).machine.savedBytes ∧
    ((outcome defaultFile args files).files.read (.ofText save) =
        .ok (c.resumed m).machine.savedBytes ↔
      (c.strict || c.settings.strictMemory) = m.memory.strict) := by
  have hstart : c.Starts m := by
    unfold Starts
    rw [hload]
    exact hread
  rcases outcome_run hstart with ⟨hexit, -, hsaves⟩
  unfold Saves at hsaves
  rw [hsave] at hsaves
  have hsaved := Files.read_write hsaves
  refine ⟨hexit, hsaved, ?_⟩
  rw [hsaved, ← c.ran_eq_resumed_iff m]
  constructor
  · intro h
    exact Machine.savedBytes_injective (Except.ok.inj h)
  · intro h
    rw [h]

/-- A read of an unmapped word, in strict memory. -/
def strictLoad : Machine := (Machine.ofCode [0x48, 0x8B, 0x04, 0x25, 0x10, 0, 0, 0]).setStrict true

def strictFiles : Files :=
  ⟨[(⟨.above 0, ["p.bin"]⟩, .file [0x90]),
    (⟨.above 0, ["s.json"]⟩, .file strictLoad.savedBytes)]⟩

def resumeArguments : List String :=
  ["run", "p.bin", "--load", "s.json", "--steps", "1", "--save", "t.json"]

def strictResume : RunLine "x64emu.json" resumeArguments strictFiles :=
  .plain 1 (some "s.json") [0x90] "t.json" ⟨.above 0, ["t.json"]⟩ (by rfl) (by decide +kernel)
    (by decide +kernel) (by decide +kernel)

/-- The step goes on without strict memory and completes, and would fault in the memory as saved. -/
theorem strictResume_saves : ∃ saved, (outcome "x64emu.json" resumeArguments strictFiles).files.read
      (.ofText "t.json") = .ok saved ∧
    saved = (strictResume.ran strictLoad).machine.savedBytes ∧
    (strictResume.ran strictLoad).stop = .step ∧
    saved ≠ (strictResume.resumed strictLoad).machine.savedBytes ∧
    (strictResume.resumed strictLoad).stop = .fault (.unmappedMemory 0x10) := by
  have hpath : Path.ofText "s.json" = ⟨.here, ["s.json"], false, 6⟩ := by decide +kernel
  have hread : strictFiles.read (.ofText "s.json") = .ok strictLoad.savedBytes := by
    rw [hpath]
    rfl
  rcases strictResume.saves_resumed_iff rfl rfl hread with ⟨-, hsaved, hiff⟩
  refine ⟨_, hsaved, rfl, by rfl, ?_, by rfl⟩
  intro hsame
  rw [hsaved, hsame] at hiff
  exact absurd (hiff.1 rfl) (by decide)

end CommandLine.RunLine

end LongMode

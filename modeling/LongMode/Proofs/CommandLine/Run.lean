import LongMode.Proofs.CommandLine.Files
import LongMode.Proofs.CommandLine.Program
/-!
A command line that runs a program, from the machine it starts with to the files it leaves. The steps
in between are taken in the order of the program: settings, the log, the program, the machine to go on
from, strictness, breakpoints, the run, what is printed, and the machine to be saved.
-/

namespace LongMode

def Machine.savedBytes (m : Machine) : List UInt8 := Utf8.encode m.saved.pretty.toList

theorem Machine.savedBytes_injective {m n : Machine} (h : m.savedBytes = n.savedBytes) : m = n := by
  have hpretty : m.saved.pretty = n.saved.pretty := String.toList_injective (Utf8.encode_injective h)
  have hparse := n.parse_pretty
  rw [← hpretty, m.parse_pretty] at hparse
  have hreader := n.reader_saved
  rw [← Except.ok.inj hparse, m.reader_saved] at hreader
  exact Except.ok.inj hreader

namespace CommandLine

open Program

variable {w : World} {files : Files} {lines : List String} {m : Machine} {v : VirtualMachine}

namespace Program

theorem preferences_run (file : String) (w : World) : ∃ messages,
    (preferences file).run w = ((preferences file).answer w.files, { w with messages }) := by
  unfold answer preferences
  rw [bind_run (get_run w), bind_run (get_run { files := w.files })]
  dsimp only
  cases (w.files.read (.ofText file)).toOption.bind fun b => (Utf8.decode b).toOption with
  | none => exact ⟨_, rfl⟩
  | some text =>
    dsimp only
    cases Preferences.ofText text <;> exact ⟨_, rfl⟩

theorem preferences_yields {file : String} {p : Preferences} (hw : w.Still files lines)
    (hp : (preferences file).answer files = .ok p) :
    (preferences file).Yields w p (·.Still files lines) := by
  rcases preferences_run file w with ⟨messages, hrun⟩
  refine ⟨_, ?_, hw.said messages⟩
  rw [hrun, hw.files, hp]

theorem level_yields {text : String} {l : Level} (hw : w.Still files lines)
    (hl : Level.ofText? text = some l) : (level text).Yields w l (·.Still files lines) := by
  unfold level
  rw [hl]
  exact .pure hw

theorem configure_yields (hw : w.Still files lines) (f : Log.Config → Log.Config) :
    (configure f).Yields w () (·.Still files lines) :=
  ⟨_, rfl, hw.files, hw.output, hw.logFile⟩

/-- A log that goes to no file of its own. -/
theorem configureLog_yields {r : Request} {p : Preferences} (hw : w.Still files lines)
    (hfile : r.logFile = none) {general : Level}
    (hgeneral : Level.ofText? (r.logLevel.getD p.logLevel) = some general)
    (hcpu : ∀ text, r.logCpu = some text → ∃ l, Level.ofText? text = some l) :
    (configureLog r p).Yields w () (·.Still files lines) := by
  unfold configureLog
  rw [hfile]
  apply (level_yields hw hgeneral).bind
  intro w hw
  apply (configure_yields hw _).bind
  intro w hw
  cases hr : r.logCpu with
  | none => exact .pure hw
  | some text =>
    rcases hcpu text hr with ⟨own, hown⟩
    apply (level_yields hw hown).bind
    intro w hw
    apply (configure_yields hw _).bind
    intro w hw
    exact .pure hw

/-- Settings that can be had and a log that goes to no file of its own, before the work that is asked
for. -/
theorem configured_yields {r : Request} {file : String} {p : Preferences} {α : Type} {x : α}
    {next : Preferences → Program α} {post : World → Prop} (hw : w.Still files lines)
    (hp : (preferences file).answer files = .ok p) (hfile : r.logFile = none)
    (hgeneral : ∃ l, Level.ofText? (r.logLevel.getD p.logLevel) = some l)
    (hcpu : ∀ text, r.logCpu = some text → ∃ l, Level.ofText? text = some l)
    (hnext : ∀ w, World.Still w files lines → (next p).Yields w x post) :
    (preferences file >>= fun p => configureLog r p >>= fun _ => next p).Yields w x post := by
  rcases hgeneral with ⟨general, hgeneral⟩
  apply (preferences_yields hw hp).bind
  intro w hw
  exact (configureLog_yields hw hfile hgeneral hcpu).bind hnext

theorem writeFile_yields {file text : String} {after : Files} (hw : w.Still files lines)
    (hwrite : files.write (.ofText file) (Utf8.encode text.toList) = .ok after) :
    (writeFile file text).Yields w () (·.Still after lines) := by
  refine ⟨{ w with files := after }, ?_, ⟨rfl, hw.output, hw.logFile⟩⟩
  unfold writeFile
  rw [bind_run (get_run w), hw.files, hwrite]
  rfl

theorem load_yields (hw : w.Still files lines) (code : List UInt8) :
    ∃ v : VirtualMachine, v.handle.settings = .execute ∧
      (engine (VirtualMachine.load code)).Yields w v
        (·.Has files lines v.handle (.ofCode code)) := by
  rcases VirtualMachine.load_run w.host code with ⟨v, after, hsettings, hrun, hmachine⟩
  rcases hw.engine hrun with ⟨last, hlast, hstill, hregistry⟩
  refine ⟨v, hsettings, last, hlast, hstill, ?_⟩
  rw [hregistry]
  exact hmachine

theorem restoreFrom_yields {old : Machine} {file : String} (hw : w.Has files lines v.handle old)
    (hread : files.read (.ofText file) = .ok m.savedBytes) :
    (restoreFrom v file).Yields w () (·.Has files lines v.handle m) := by
  unfold restoreFrom
  rw [← hw.files] at hread
  apply Yields.after (readText_run hread)
  apply hw.engine
  rw [String.ofList_toList]
  exact VirtualMachine.restore_run hw.machine m.parse_pretty m.reader_saved

theorem addBreakpoints_yields (hw : w.Has files lines v.handle m) (addresses : List UInt64) :
    (addBreakpoints v addresses).Yields w ()
      (·.Has files lines v.handle (m.withBreakpoints (m.breakpoints.insertMany addresses))) := by
  have hall : m.breakpoints.insertMany addresses = m.breakpoints.insertMany
      ((Std.ExtTreeSet.ofList addresses compare).toList.filter fun a =>
        !m.breakpoints.toList.contains a) := by
    apply Std.ExtTreeSet.ext_mem
    intro a
    simp only [Std.ExtTreeSet.mem_insertMany_list, List.contains_eq_mem, List.mem_filter,
      Std.ExtTreeSet.mem_toList, Std.ExtTreeSet.mem_ofList, decide_eq_true_eq, Bool.not_eq_true',
      decide_eq_false_iff_not]
    tauto
  unfold addBreakpoints
  apply (hw.view (·.breakpoints.toList)).bind
  intro w hw
  rw [hall]
  apply hw.toggleAll
  · apply List.Nodup.filter
    refine Std.ExtTreeSet.distinct_toList.imp ?_
    intro a b hab heq
    exact hab (Std.LawfulEqCmp.compare_eq_iff_eq.2 heq)
  · intro a ha
    have hnew := (List.mem_filter.1 ha).2
    rw [Std.ExtTreeSet.contains_toList, Bool.not_eq_true'] at hnew
    exact hnew

end Program

def stateLines (m : Machine) (s : Status) : List String :=
  registerLines (m.registers.general .qword) ++
    ["RIP=" ++ wordHex s.ip ++ "  [" ++ m.flags.text ++ "]",
      stopText s.stop ++ " after " ++ toString s.executed ++ " instructions"]

theorem Program.printState_yields (hw : w.Has files lines v.handle m) (s : Status) :
    (printState v s).Yields w () (·.Has files (lines ++ stateLines m s) v.handle m) := by
  unfold printState
  apply (hw.view (·.registers.general .qword)).bind
  intro w hw
  apply (hw.printAll _).bind
  intro w hw
  apply (hw.view (·.flags)).bind
  intro w hw
  apply (hw.print _).bind
  intro w hw
  apply (hw.print _).bind
  intro w hw
  rw [List.append_assoc, List.append_assoc] at hw
  cases s.invalidOpcode with
  | none => exact .pure hw
  | some f => exact say_yields hw.said

/-- A command line that runs a program, where everything that it names can be read and the file to be
saved can be written. The log goes to no file. -/
structure RunLine (defaultFile : String) (args : List String) (files : Files) where
  config : Option String
  logLevel : Option String
  logCpu : Option String
  file : String
  hex : Bool
  breaks : List String
  steps : Option UInt64
  strict : Bool
  load : Option String
  save : Option String
  asked : Request.ofArguments args = .ok
    { config, logLevel, logCpu, logFile := none
      command := .run file hex breaks steps strict load save }
  settings : Preferences
  found : (preferences (config.getD defaultFile)).answer files = .ok settings
  general : ∃ l, Level.ofText? (logLevel.getD settings.logLevel) = some l
  own : ∀ text, logCpu = some text → ∃ l, Level.ofText? text = some l
  code : List UInt8
  program : (loadProgram file hex).answer files = .ok code
  addresses : List UInt64
  marks : (settings.breakpoints ++ breaks).mapM (fun t => Numeral.readWord t.toList) = .ok addresses
  place : ∀ name, save = some name → ∃ p, files.target (.ofText name) = .ok p

namespace RunLine

variable {defaultFile : String} {args : List String}

/-- A command line without options besides the steps and the files of machines, for a program in
`p.bin` and with the usual settings. -/
def plain (steps : UInt64) (load : Option String) (code : List UInt8) (save : String) (place : Place)
    (asked : Request.ofArguments args = .ok
      { config := none, logLevel := none, logCpu := none, logFile := none
        command := .run "p.bin" false [] (some steps) false load (some save) })
    (found : (preferences defaultFile).answer files = .ok {})
    (program : (loadProgram "p.bin" false).answer files = .ok code)
    (hplace : files.target (.ofText save) = .ok place) : RunLine defaultFile args files where
  config := none
  logLevel := none
  logCpu := none
  file := "p.bin"
  hex := false
  breaks := []
  steps := some steps
  strict := false
  load := load
  save := some save
  asked := asked
  settings := {}
  found := found
  general := ⟨.off, by rfl⟩
  own := by nofun
  code := code
  program := program
  addresses := []
  marks := by rfl
  place := by
    intro name h
    cases h
    exact ⟨place, hplace⟩

/-- The machine that the run goes on from: a saved one if one is named, else a fresh one. -/
def Starts (c : RunLine defaultFile args files) (m : Machine) : Prop :=
  match c.load with
  | none => m = .ofCode c.code
  | some name => files.read (.ofText name) = .ok m.savedBytes

/-- What the files are after the machine has been saved, if it is to be saved. -/
def Saves (c : RunLine defaultFile args files) (m : Machine) (after : Files) : Prop :=
  match c.save with
  | none => after = files
  | some name => files.write (.ofText name) m.savedBytes = .ok after

variable (c : RunLine defaultFile args files)

def request : Request where
  config := c.config
  logLevel := c.logLevel
  logCpu := c.logCpu
  logFile := none
  command := .run c.file c.hex c.breaks c.steps c.strict c.load c.save

def budget : Nat := (c.steps.getD c.settings.maxSteps).toNat

/-- The machine as it is run: strictness is set, and breakpoints are added. -/
def prepared (m : Machine) : Machine :=
  (m.setStrict (c.strict || c.settings.strictMemory)).withBreakpoints
    (m.breakpoints.insertMany c.addresses)

def ran (m : Machine) : Run := (c.prepared m).runFor .execute c.budget

def shown (m : Machine) : List String := stateLines (c.ran m).machine (c.ran m).status

variable {c}

theorem restore_yields (hstart : c.Starts m) (hw : w.Has files lines v.handle (.ofCode c.code)) :
    (c.load.forM (restoreFrom v)).Yields w () (·.Has files lines v.handle m) := by
  unfold Starts at hstart
  cases hload : c.load with
  | none =>
    rw [hload] at hstart
    rw [hstart]
    exact .pure hw
  | some name =>
    rw [hload] at hstart
    exact restoreFrom_yields hw hstart

theorem exists_saves (c : RunLine defaultFile args files) (m : Machine) :
    ∃ after, c.Saves m after := by
  unfold Saves
  cases hsave : c.save with
  | none => exact ⟨files, rfl⟩
  | some name =>
    rcases c.place name hsave with ⟨p, hp⟩
    exact ⟨files.put p m.savedBytes, Files.write_of_target hp _⟩

theorem save_yields {after : Files} (hsaves : c.Saves m after) (hw : w.Has files lines v.handle m) :
    (match c.save with
      | none => pure ()
      | some name => do
        let saved ← engine v.save
        writeFile name saved.pretty
        inform ("Saved machine state to " ++ name) : Program Unit).Yields w ()
      (·.Still after lines) := by
  unfold Saves at hsaves
  cases hsave : c.save with
  | none =>
    rw [hsave] at hsaves
    rw [hsaves]
    exact .pure hw.toStill
  | some name =>
    rw [hsave] at hsaves
    apply (hw.view (·.saved)).bind
    intro w hw
    apply (writeFile_yields hw.toStill hsaves).bind
    intro w hw
    exact say_yields hw.said

theorem runProgram_yields {after : Files} (hstart : c.Starts m)
    (hsaves : c.Saves (c.ran m).machine after) (hw : w.Still files []) :
    (runProgram c.settings c.file c.hex c.breaks c.steps c.strict c.load c.save).Yields w ()
      (·.Still after (c.shown m)) := by
  unfold runProgram
  apply Yields.after ((loadProgram_reads c.file c.hex).run c.program hw.files)
  rcases load_yields hw c.code with ⟨v, hexecute, hload⟩
  apply hload.bind
  intro w hw
  apply (restore_yields hstart hw).bind
  intro w hw
  apply (hw.change fun m => ((), m.setStrict _)).bind
  intro w hw
  apply Yields.after (readBreakpoints_run c.marks w)
  apply (addBreakpoints_yields hw c.addresses).bind
  intro w hw
  have hrun := hw.engine (Handle.runFor_run hw.machine c.budget)
  rw [hexecute] at hrun
  apply hrun.bind
  intro w hw
  apply (printState_yields hw _).bind
  intro w hw
  exact save_yields hsaves hw

theorem serve_yields {after : Files} (hstart : c.Starts m)
    (hsaves : c.Saves (c.ran m).machine after) :
    (serve defaultFile c.request).Yields { files } () (·.Still after (c.shown m)) := by
  have hw : ({ files } : World).Still files [] := ⟨rfl, rfl, rfl⟩
  unfold serve
  refine configured_yields (r := c.request) hw c.found rfl c.general c.own ?_
  intro w hw
  exact runProgram_yields hstart hsaves hw

/-- What such a command line does: the machine that is run and what its run came to are shown, and the
machine is saved if it is to be saved. -/
theorem outcome_run (hstart : c.Starts m) :
    (outcome defaultFile args files).exit = 0 ∧
    (outcome defaultFile args files).output =
      String.join ((c.shown m).flatMap fun line => [line, "\n"]) ∧
    c.Saves (c.ran m).machine (outcome defaultFile args files).files := by
  rcases c.exists_saves (c.ran m).machine with ⟨after, hsaves⟩
  obtain ⟨hexit, houtput, hfiles⟩ := outcome_of_yields c.asked (serve_yields hstart hsaves)
  rw [hfiles]
  exact ⟨hexit, houtput, hsaves⟩

end RunLine

end CommandLine

end LongMode

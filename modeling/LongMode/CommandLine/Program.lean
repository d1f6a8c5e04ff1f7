import LongMode.CommandLine.Arguments
import LongMode.CommandLine.Files
import LongMode.CommandLine.Preferences
import LongMode.Host.Disassembler
import LongMode.Host.TestRunner
import LongMode.Host.VirtualMachine
import LongMode.Testcase.Json
import LongMode.Text.Lines
import LongMode.Text.Utf8
/-!
The command line program, from its arguments and the files it finds to what it prints and the files
it leaves.
-/

namespace LongMode.CommandLine

structure Failure where
  message : String
  cause : Option String := none
deriving DecidableEq, Repr

structure World where
  host : Host := {}
  files : Files
  /-- What was printed, the last piece first. -/
  output : List String := []
  /-- The messages, the last one first. -/
  messages : List String := []
  /-- Where the log goes instead of among the messages. -/
  logFile : Option Path := none

/-- A text with its lines after the first moved in by four places. -/
def indented (text : String) : String :=
  String.ofList (Text.hanging [' ', ' ', ' ', ' '] text.toList)

abbrev Program (α : Type) := ExceptT Failure (StateM World) α

namespace Program

def fail {α : Type} (message : String) (cause : Option String) : Program α :=
  throw { message, cause }

def print (line : String) : Program Unit :=
  modify fun w => { w with output := "\n" :: line :: w.output }

/-- A message of the program itself, with its further lines moved in. -/
def say (level source text : String) : Program Unit :=
  modify fun w =>
    { w with messages := ("[" ++ level ++ " " ++ source ++ "] " ++ indented text) :: w.messages }

def name : String := "x64emu"

def inform (text : String) : Program Unit := say "INFO " name text

def warn (text : String) : Program Unit := say "WARN " name text

def flushLog (w : World) : World :=
  let lines := w.host.log.lines
  let host := { w.host with log := { w.host.log with lines := [] } }
  match w.logFile with
  | none => { w with host, messages := lines ++ w.messages }
  | some path =>
    let added := Utf8.encode (String.join (lines.reverse.map (· ++ "\n"))).toList
    let old := (w.files.read path).toOption.getD []
    let files := (w.files.write path (old ++ added)).toOption.getD w.files
    { w with host, files }

def failureOf : HostError → Failure
  | .unknownHandle id => { message := "Unknown handle: " ++ handleText id }
  | .unknownRegister name => { message := "Unknown register: " ++ name }
  | .misuse u => { message := u.message?.getD "Access out of range" }
  | .refused r => { message := r.message }

def engine {α : Type} (action : Action α) : Program α := do
  let w ← get
  let (result, host) := action.run w.host
  set (flushLog { w with host })
  match result with
  | .ok x => pure x
  | .error e => throw (failureOf e)

def readFile (file : String) : Program (List UInt8) := do
  let w ← get
  match w.files.read (.ofText file) with
  | .ok bytes => pure bytes
  | .error f => fail ("Failed to read " ++ file) (some f.message)

def notText : String := "stream did not contain valid UTF-8"

def readText (file : String) : Program (List Char) := do
  match Utf8.decode (← readFile file) with
  | .ok text => pure text
  | .error _ => fail ("Failed to read " ++ file) (some notText)

def writeFile (file text : String) : Program Unit := do
  let w ← get
  match w.files.write (.ofText file) (Utf8.encode text.toList) with
  | .ok files => set { w with files }
  | .error f => fail f.message none

/-! Settings and the log. -/

/-- The preferences in a file; the usual ones where there is no such file. -/
def preferences (file : String) : Program Preferences := do
  let w ← get
  match (w.files.read (.ofText file)).toOption.bind fun bytes => (Utf8.decode bytes).toOption with
  | none => return {}
  | some text =>
    match Preferences.ofText text with
    | .ok p => return p
    | .error _ =>
      say "WARN " (name ++ "::config") ("Failed to parse " ++ file)
      return {}

def level (text : String) : Program Level :=
  match Level.ofText? text with
  | some l => pure l
  | none => fail ("Unknown log level '" ++ text ++ "'") none

def configure (f : Log.Config → Log.Config) : Program Unit :=
  modify fun w =>
    { w with host := { w.host with log := { w.host.log with config := f w.host.log.config } } }

def openLog (file : String) : Program Unit := do
  let w ← get
  let path := Path.ofText file
  let old := (w.files.read path).toOption.getD []
  match w.files.write path old with
  | .ok files => set { w with files, logFile := some path }
  | .error f => fail ("Cannot open log file " ++ file) (some f.message)

def configureLog (r : Request) (p : Preferences) : Program Unit := do
  let general ← level (r.logLevel.getD p.logLevel)
  configure fun c => { c with general, limit := p.rateLimit.toNat }
  match r.logCpu with
  | none => pure ()
  | some text =>
    let own ← level text
    configure (·.setSpecific .cpu own)
  match r.logFile with
  | none => pure ()
  | some file => openLog file

/-! The commands. -/

def loadProgram (file : String) (hex : Bool) : Program (List UInt8) := do
  let raw ← readFile file
  let isHex := hex ||
    (Path.ofText file).extension?.any fun e => Text.lower e.toList == ['h', 'e', 'x']
  let code ←
    if isHex then
      match Utf8.decode raw with
      | .error f => fail (file ++ " is not hex text") (some f.message)
      | .ok text =>
        match Numeral.readCode text with
        | .error e => fail e.message none
        | .ok code => pure code
    else pure raw
  if code.isEmpty then fail (file ++ " contains no code") none else return code

def wordHex (v : UInt64) : String :=
  String.ofList (Digits.padded 16 (Digits.upperHex v.toNat))

def rightAligned (name : String) : String :=
  String.ofList (List.replicate (3 - name.length) ' ') ++ name

def registerLines (values : List UInt64) : List String :=
  let cells := (Register.qwordNames.toList.zip values).map fun (name, v) =>
    rightAligned name ++ "=" ++ wordHex v
  [0, 4, 8, 12].map fun n => "  ".intercalate ((cells.drop n).take 4)

def stopText : StopReason → String
  | .step => "Instruction budget spent"
  | .breakpoint a => "Breakpoint at " ++ Digits.prefixedHex a.toNat
  | .endOfCode => "End of code"
  | .fault f => "Fault: " ++ f.message
  | .misuse u => "Fault: " ++ u.message?.getD ""

def printState (v : VirtualMachine) (s : Status) : Program Unit := do
  let values ← engine (v.handle.view (·.registers.general .qword))
  (registerLines values).forM print
  let flags ← engine (v.handle.view (·.flags))
  print ("RIP=" ++ wordHex s.ip ++ "  [" ++ flags.text ++ "]")
  print (stopText s.stop ++ " after " ++ toString s.executed ++ " instructions")
  match s.invalidOpcode with
  | some f => warn f.message
  | none => pure ()

def readBreakpoints : List String → Program (List UInt64)
  | [] => pure []
  | text :: rest => do
    match Numeral.readWord text.toList with
    | .error e => fail ("Bad breakpoint '" ++ text ++ "'") (some e.message)
    | .ok a =>
      let others ← readBreakpoints rest
      return a :: others

def restoreFrom (v : VirtualMachine) (file : String) : Program Unit := do
  let text ← readText file
  engine (v.restore (String.ofList text))

/-- Breakpoints set on top of those there are. -/
def addBreakpoints (v : VirtualMachine) (addresses : List UInt64) : Program Unit := do
  let present ← engine v.handle.breakpoints
  let wanted : Std.ExtTreeSet UInt64 := .ofList addresses
  (wanted.toList.filter fun a => !present.contains a).forM fun a => do
    let _ ← engine (v.handle.toggleBreakpoint a)

def runProgram (p : Preferences) (file : String) (hex : Bool) (breakpoints : List String)
    (steps : Option UInt64) (strict : Bool) (load save : Option String) : Program Unit := do
  let code ← loadProgram file hex
  let v ← engine (VirtualMachine.load code)
  load.forM (restoreFrom v)
  engine (v.handle.setStrict (strict || p.strictMemory))
  let addresses ← readBreakpoints (p.breakpoints ++ breakpoints)
  addBreakpoints v addresses
  let status ← engine (v.handle.runFor (steps.getD p.maxSteps).toNat)
  printState v status
  match save with
  | none => pure ()
  | some file =>
    let saved ← engine v.save
    writeFile file saved.pretty
    inform ("Saved machine state to " ++ file)

/-- The bytes that a line of a listing covers; none where the program ends inside the line. -/
def lineBytes (code : List UInt8) (origin : UInt64) (line : Line) : List UInt8 :=
  let start := (line.address - origin).toNat
  if start + line.length.toNat ≤ code.length then (code.drop start).take line.length.toNat else []

def leftAligned (places : Nat) (text : String) : String :=
  text ++ String.ofList (List.replicate (places - text.length) ' ')

def lineText (code : List UInt8) (origin : UInt64) (line : Line) : String :=
  let mark := if line.info.contains .invalid then "!" else " "
  let bytes := " ".intercalate ((lineBytes code origin line).map Digits.byteHex)
  String.ofList (Digits.padded 8 (Digits.upperHex line.address.toNat)) ++ ":" ++ mark ++
    leftAligned 30 bytes ++ " " ++ line.text

def listingLines (code : List UInt8) (lines : Lines) : List String :=
  let m := Machine.ofCode code
  (lines.shown m.ip).map (lineText code m.memory.entry)

def disassemble (file : String) (hex : Bool) : Program Unit := do
  let code ← loadProgram file hex
  let d ← engine (Disassembler.ofMachine (.ofCode code))
  (listingLines code d.lines).forM print

/-- A testcase file run: the report, or why there is none. -/
def reportOn (limit : Nat) (file : String) : Program (Except String TestReport) := do
  let w ← get
  match w.files.read (.ofText file) with
  | .error f => return .error ("I/O error: " ++ f.message)
  | .ok bytes =>
    match Utf8.decode bytes with
    | .error _ => return .error ("I/O error: " ++ notText)
    | .ok text =>
      match Testcase.ofText (String.ofList text) with
      | .error e => return .error e.message
      | .ok t =>
        let r ← engine (t.runRegistered limit)
        return r.mapError TestcaseError.message

/-- A testcase file run and its outcome printed; whether it passed. -/
def runTestcase (limit : Nat) (file : String) : Program Bool := do
  match ← reportOn limit file with
  | .error message =>
    print ("ERROR " ++ file ++ ": " ++ message)
    return false
  | .ok r =>
    if r.passed then
      print ("PASS  " ++ r.name ++ " (" ++ toString r.executed ++ " instructions)")
      return true
    else
      print ("FAIL  " ++ r.name)
      r.failures.forM fun c => c.mismatches.forM fun mismatch =>
        print ("      " ++ Digits.prefixedHex c.address.toNat ++ ": " ++ mismatch.text)
      return false

def countFailed (limit : Nat) : List String → Program Nat
  | [] => pure 0
  | file :: rest => do
    let passed ← runTestcase limit file
    let others ← countFailed limit rest
    return if passed then others else others + 1

def test (limit : Nat) (files : List String) : Program Unit := do
  let failed ← countFailed limit files
  print (toString (files.length - failed) ++ " passed, " ++ toString failed ++ " failed")
  if 0 < failed then fail (toString failed ++ " testcase(s) failed") none

/-- The whole program. Settings come from `defaultFile` unless the arguments name a file. -/
def serve (defaultFile : String) (r : Request) : Program Unit := do
  let file := r.config.getD defaultFile
  let p ← preferences file
  configureLog r p
  match r.command with
  | .run file hex breakpoints steps strict load save =>
    runProgram p file hex breakpoints steps strict load save
  | .disasm file hex => disassemble file hex
  | .test files => test p.maxSteps.toNat files
  | .configShow =>
    print ("# " ++ file)
    print p.text
  | .configSave =>
    writeFile file p.text
    inform ("Saved settings to " ++ file)

end Program

structure Outcome where
  exit : Nat
  output : String
  /-- What it said besides its output. -/
  messages : String
  files : Files

def Failure.text (f : Failure) : String :=
  let cause := match f.cause with
    | none => ""
    | some cause => "\n\nCaused by:\n    " ++ indented cause
  "Error: " ++ f.message ++ cause

def outcome (defaultFile : String) (args : List String) (files : Files) : Outcome :=
  match Request.ofArguments args with
  | .error .usage => { exit := 2, output := "", messages := "", files }
  | .error .help => { exit := 0, output := "", messages := "", files }
  | .error .version => { exit := 0, output := "x64emu 0.1.0\n", messages := "", files }
  | .ok r =>
    let (result, w) := (Program.serve defaultFile r).run { files }
    let (exit, failed) := match result with
      | .ok () => (0, [])
      | .error f => (1, [f.text])
    { exit
      output := String.join w.output.reverse
      messages := String.join ((w.messages.reverse ++ failed).map (· ++ "\n"))
      files := w.files }

end LongMode.CommandLine

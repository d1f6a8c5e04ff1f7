import LongMode.Text.Digits
/-!
The arguments of the command line. An option is a word behind two dashes, and its value is the next
argument or follows an equals sign. Behind two dashes alone there are no options. Some options may
stand in front of the command or behind it; where they stand in both places, the later one counts.
-/

namespace LongMode.CommandLine

/-- How often an option may be given, and with what. -/
inductive Kind where
  /-- At most once, without a value. -/
  | switch
  /-- At most once, with any value. -/
  | value
  /-- At most once, with a value that is not empty. -/
  | path
  /-- At most once, with a number of 64 bits. -/
  | count
  /-- Any number of times, each time with a value. -/
  | values
deriving DecidableEq, Repr

/-- How many files may be named. -/
inductive Naming where
  | nothing
  | one
  | many
deriving DecidableEq, Repr

/-- A command, and the commands that may follow it. -/
inductive Menu where
  | item (name : String) (inner : List Menu)

namespace Menu

def name : Menu → String
  | item name _ => name

def inner : Menu → List Menu
  | item _ inner => inner

end Menu

structure Grammar where
  options : List (String × Kind)
  /-- The commands that may follow. -/
  commands : List Menu := []
  files : Naming := .nothing
  /-- Whether the version can be asked for here. -/
  version : Bool := false

structure Saying where
  /-- The options with their values, in order. -/
  options : List (String × String) := []
  files : List String := []
  /-- A command, and the arguments behind it. -/
  command : Option (String × List String) := none

inductive Declined where
  /-- The arguments make no sense. -/
  | usage
  /-- A help text is asked for. -/
  | help
  /-- The version is asked for. -/
  | version
deriving DecidableEq, Repr

def readCount? (text : String) : Option UInt64 :=
  (Digits.read? 10 UInt64.size text.toList).map UInt64.ofNat

/-- What a call for help comes to that names commands, each one behind the last. There is no help
with a command that is not there. -/
def helpWith (commands : List Menu) : List String → Declined
  | [] => .help
  | word :: rest =>
    match commands.find? (·.name == word) with
    | some command => helpWith command.inner rest
    | none =>
      if word = "help" ∧ !commands.isEmpty ∧ rest.isEmpty then .help else .usage

namespace Grammar

def cutAtEquals (word : List Char) : String × Option String :=
  let name := word.takeWhile (· != '=')
  match word.drop name.length with
  | _ :: value => (String.ofList name, some (String.ofList value))
  | [] => (String.ofList name, none)

def record (g : Grammar) (s : Saying) (name value : String) : Except Declined Saying :=
  let again := (s.options.lookup name).isSome
  let said := { s with options := s.options ++ [(name, value)] }
  match g.options.lookup name with
  | some .values => .ok said
  | some .path => if again ∨ value = "" then .error .usage else .ok said
  | some .count => if again ∨ (readCount? value).isNone then .error .usage else .ok said
  | _ => if again then .error .usage else .ok said

def recordFile (g : Grammar) (s : Saying) (name : String) : Except Declined Saying :=
  let room : Bool := match g.files with
    | .nothing => false
    | .one => s.files.isEmpty
    | .many => true
  if room ∧ name ≠ "" then .ok { s with files := s.files ++ [name] } else .error .usage

def recordFiles (g : Grammar) (s : Saying) : List String → Except Declined Saying
  | [] => .ok s
  | name :: rest => do
    let s ← g.recordFile s name
    g.recordFiles s rest

/-- What a word behind two dashes asks for that is no option of the place. -/
def question (g : Grammar) (name : String) : Declined :=
  if name = "help" then .help
  else if name = "version" ∧ g.version then .version
  else .usage

def shortQuestion (g : Grammar) : List Char → Declined
  | 'h' :: _ => .help
  | 'V' :: _ => if g.version then .version else .usage
  | _ => .usage

/-- The arguments up to a command. An option waits for its value in `pending`. -/
def read (g : Grammar) (pending : Option String) (s : Saying) :
    List String → Except Declined Saying
  | [] => if pending.isSome then .error .usage else .ok s
  | word :: rest =>
    match pending, word.toList with
    | some _, ['-', '-'] => .error .usage
    | none, ['-', '-'] => g.recordFiles s rest
    | _, '-' :: '-' :: body =>
      let (name, attached) := cutAtEquals body
      match g.options.lookup name, attached with
      | none, some _ => .error .usage
      | none, none => .error (if pending.isSome then .usage else g.question name)
      | some .switch, none =>
        if pending.isSome then .error .usage
        else do
          let s ← g.record s name ""
          g.read none s rest
      | some .switch, some _ => .error .usage
      | some _, some value =>
        if pending.isSome then .error .usage
        else do
          let s ← g.record s name value
          g.read none s rest
      | some _, none => if pending.isSome then .error .usage else g.read (some name) s rest
    | _, '-' :: c :: more =>
      .error (if pending.isSome then .usage else g.shortQuestion (c :: more))
    | some name, _ => do
      let s ← g.record s name word
      g.read none s rest
    | none, _ =>
      if g.commands.any (·.name == word) then .ok { s with command := some (word, rest) }
      else if !g.commands.isEmpty ∧ word = "help" then .error (helpWith g.commands rest)
      else do
        let s ← g.recordFile s word
        g.read none s rest

end Grammar

def everywhere : List (String × Kind) :=
  [("config", .path), ("log-level", .value), ("log-cpu", .value), ("log-file", .path)]

inductive Command where
  /-- Runs a program and shows the machine. -/
  | run (file : String) (hex : Bool) (breakpoints : List String) (steps : Option UInt64)
    (strict : Bool) (load save : Option String)
  /-- Lists a program. -/
  | disasm (file : String) (hex : Bool)
  /-- Runs testcases. -/
  | test (files : List String)
  /-- Shows the settings. -/
  | configShow
  /-- Writes the settings file. -/
  | configSave
deriving DecidableEq, Repr

structure Request where
  config : Option String
  logLevel : Option String
  logCpu : Option String
  logFile : Option String
  command : Command
deriving DecidableEq, Repr

namespace Saying

def has (s : Saying) (name : String) : Bool := (s.options.lookup name).isSome

def all (s : Saying) (name : String) : List String :=
  (s.options.filter (·.1 == name)).map Prod.snd

def next (s : Saying) : Except Declined (String × List String) :=
  match s.command with
  | some c => .ok c
  | none => .error .usage

def file (s : Saying) : Except Declined String :=
  match s.files with
  | [file] => .ok file
  | _ => .error .usage

end Saying

def runGrammar : Grammar where
  options := everywhere ++
    [("hex", .switch), ("break", .values), ("steps", .count), ("strict", .switch), ("load", .path),
      ("save", .path)]
  files := .one

def disasmGrammar : Grammar where
  options := everywhere ++ [("hex", .switch)]
  files := .one

def testGrammar : Grammar where
  options := everywhere
  files := .many

def configMenu : List Menu := [.item "show" [], .item "save" []]

def configGrammar : Grammar where
  options := everywhere
  commands := configMenu

def actionGrammar : Grammar where
  options := everywhere

def topGrammar : Grammar where
  options := everywhere
  commands := [.item "run" [], .item "disasm" [], .item "test" [], .item "config" configMenu]
  version := true

/-- A command with what was said about it, the innermost place first. -/
def readCommand (name : String) (args : List String) :
    Except Declined (Command × List Saying) := do
  match name with
  | "run" =>
    let s ← runGrammar.read none {} args
    let file ← s.file
    let steps := (s.options.lookup "steps").bind readCount?
    return (.run file (s.has "hex") (s.all "break") steps (s.has "strict")
      (s.options.lookup "load") (s.options.lookup "save"), [s])
  | "disasm" =>
    let s ← disasmGrammar.read none {} args
    let file ← s.file
    return (.disasm file (s.has "hex"), [s])
  | "test" =>
    let s ← testGrammar.read none {} args
    if s.files.isEmpty then .error .usage else return (.test s.files, [s])
  | _ =>
    let s ← configGrammar.read none {} args
    let (action, rest) ← s.next
    let inner ← actionGrammar.read none {} rest
    return (if action = "show" then .configShow else .configSave, [inner, s])

def Request.ofArguments (args : List String) : Except Declined Request := do
  let top ← topGrammar.read none {} args
  let (name, rest) ← top.next
  let (command, sayings) ← readCommand name rest
  let option (name : String) : Option String :=
    (sayings ++ [top]).findSome? fun s => s.options.lookup name
  return { config := option "config", logLevel := option "log-level", logCpu := option "log-cpu"
           logFile := option "log-file", command }

end LongMode.CommandLine

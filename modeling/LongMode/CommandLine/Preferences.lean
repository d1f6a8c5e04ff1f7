import LongMode.Json.Printer
import LongMode.Json.Record
import LongMode.Testcase.Run
/-!
The settings file of the command line. What it leaves out has its usual value.
-/

namespace LongMode.CommandLine

structure Preferences where
  /-- The log level of every category. -/
  logLevel : String := "off"
  /-- How many log messages of one category are written in a second. -/
  rateLimit : UInt64 := 60
  /-- Reads of unmapped memory fault. -/
  strictMemory : Bool := false
  /-- The instructions that a run or a testcase may execute. -/
  maxSteps : UInt64 := UInt64.ofNat Testcase.usualLimit
  /-- Breakpoints set before every run. -/
  breakpoints : List String := []
deriving DecidableEq, Repr

namespace Preferences

def toJson (p : Preferences) : Json :=
  .object
    [("log_level", .text p.logLevel), ("rate_limit", .number p.rateLimit.toNat),
      ("strict_memory", .bool p.strictMemory), ("max_steps", .number p.maxSteps.toNat),
      ("breakpoints", Json.ofList .text p.breakpoints)]

structure Draft where
  logLevel : Option String := none
  rateLimit : Option UInt64 := none
  strictMemory : Option Bool := none
  maxSteps : Option UInt64 := none
  breakpoints : Option (List String) := none

def fields : List (Json.Field Draft) :=
  [.of "log_level" Draft.logLevel (fun s v => { s with logLevel := v }) Json.Reader.text,
    .of "rate_limit" Draft.rateLimit (fun s v => { s with rateLimit := v }) Json.Reader.word,
    .of "strict_memory" Draft.strictMemory (fun s v => { s with strictMemory := v })
      Json.Reader.bool,
    .of "max_steps" Draft.maxSteps (fun s v => { s with maxSteps := v }) Json.Reader.word,
    .of "breakpoints" Draft.breakpoints (fun s v => { s with breakpoints := v })
      (Json.Reader.list Json.Reader.text)]

def ofDraft (s : Draft) : Preferences :=
  let usual : Preferences := {}
  { logLevel := s.logLevel.getD usual.logLevel
    rateLimit := s.rateLimit.getD usual.rateLimit
    strictMemory := s.strictMemory.getD usual.strictMemory
    maxSteps := s.maxSteps.getD usual.maxSteps
    breakpoints := s.breakpoints.getD usual.breakpoints }

def reader : Json.Reader Preferences := fun d => do
  let s ← Json.Reader.record .malformed fields {} d
  return ofDraft s

def ofText (text : List Char) : Except Json.Refusal Preferences := Json.Document.readText reader text

def text (p : Preferences) : String := p.toJson.pretty

end Preferences

end LongMode.CommandLine

import LongMode.Run
/-!
Listings: the decoded lines of a program by address, kept in step with edits of it. An edit decodes
again from the first line it touches, until decoding comes to a line that is still there behind the
edited bytes.
-/

namespace LongMode

/-- The lines by the addresses they start at. -/
abbrev Lines := Std.ExtTreeMap UInt64 Line

namespace Lines

/-- The lines that do not start in a range. -/
def dropRange (lines : Lines) (start stop : UInt64) : Lines :=
  lines.filter fun a _ => !(start ≤ a && a < stop)

/-- The start of the line that covers an address, or the address itself. -/
def startAt (lines : Lines) (a : UInt64) : UInt64 :=
  match lines.getEntryLE? a with
  | some (start, line) => if a < line.stop then start else a
  | none => a

/-- The lines in address order, with the one at `ip` marked. -/
def shown (lines : Lines) (ip : UInt64) : List Line :=
  lines.toList.map fun (_, line) =>
    if line.address = ip then { line with info := line.info.insert .ipHere } else line

end Lines

structure Listing where
  machine : Machine
  lines : Lines

namespace Listing

/-- The line decoded at an address, if that is in the program and can be read. -/
def decode? (m : Machine) (a : UInt64) : Option Line :=
  let r := { m with ip := a }.run .listing true
  r.status.lines.head?

def wholeRun (m : Machine) : Run := { m with ip := m.memory.entry }.run .listing false

def ofMachine (m : Machine) : Listing :=
  let r := wholeRun m
  { machine := r.machine, lines := .ofList (r.status.lines.map fun l => (l.address, l)) }

def toggleBreakpoint (listing : Listing) (a : UInt64) : Bool × Listing :=
  let (isSet, machine) := listing.machine.toggleBreakpoint a
  let mark (line : Line) : Line :=
    { line with info := if isSet then line.info.insert .breakpoint else line.info.remove .breakpoint }
  (isSet, { machine, lines := listing.lines.modify a mark })

structure Redecoded where
  lines : Lines
  /-- The addresses at which an instruction was looked for, the last one first. -/
  tried : List UInt64
  /-- How many lines were found. -/
  found : Nat
  /-- Where decoding ended. -/
  ip : UInt64

/-- Decoding from `r.ip` on, up to the end of the program or to a line that starts at `edited` or
later. A line that is found takes the place of those it covers. -/
def redecode (m : Machine) (edited : UInt64) : Nat → Redecoded → Redecoded
  | 0, r => r
  | fuel + 1, r =>
    if m.memory.codeEnd ≤ r.ip then r
    else if edited ≤ r.ip && r.lines.contains r.ip then r
    else
      match decode? m r.ip with
      | none => { r with tried := r.ip :: r.tried }
      | some line =>
        redecode m edited fuel
          { lines := (r.lines.dropRange r.ip line.stop).insert line.address line
            tried := r.ip :: r.tried
            found := r.found + 1
            ip := line.stop }

/-- One past the last edited byte, at most the last address there is. -/
def editEnd (a : UInt64) (count : Nat) : UInt64 := UInt64.ofNat (min (a.toNat + count) (UInt64.size - 1))

/-- The listing after bytes were written at an address, with what was decoded for it. -/
def edit (listing : Listing) (a : UInt64) (bytes : List UInt8) : Listing × Redecoded :=
  let m := listing.machine.write a bytes
  let edited := editEnd a bytes.length
  let start := listing.lines.startAt a
  let kept := listing.lines.dropRange start edited
  let r := redecode m edited (m.memory.codeEnd.toNat - start.toNat) ⟨kept, [], 0, start⟩
  -- looking for an instruction moves the instruction pointer
  let ip := if r.tried.isEmpty then m.ip else r.ip
  ({ machine := { m with ip }, lines := r.lines }, r)

def flash (listing : Listing) (a : UInt64) (bytes : List UInt8) : Listing :=
  if bytes.isEmpty then listing else (listing.edit a bytes).1

end Listing

end LongMode

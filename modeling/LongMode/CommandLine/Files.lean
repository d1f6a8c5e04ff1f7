import LongMode.Text.Blank
/-!
A small file system: what lies at which place, and how a path is walked. Every name on the way must
lead to a directory before the next one is looked at, so a detour through a name that is not there
fails even where two dots would lead back.
-/

namespace LongMode.CommandLine

inductive FileFault where
  | notFound
  | notDirectory
  | isDirectory
  | nameTooLong
deriving DecidableEq, Repr

def FileFault.message : FileFault → String
  | notFound => "No such file or directory (os error 2)"
  | notDirectory => "Not a directory (os error 20)"
  | isDirectory => "Is a directory (os error 21)"
  | nameTooLong => "File name too long (os error 36)"

/-- The directories that are known without a name. -/
inductive Base where
  /-- The working directory, or the directory so many levels above it. -/
  | above (levels : Nat)
  /-- The directory above all others. -/
  | root
deriving DecidableEq, Repr

/-- A place in the file system: the names from a known directory down to it. -/
structure Place where
  base : Base
  names : List String
deriving DecidableEq, Repr

namespace Place

def here : Place := ⟨.above 0, []⟩

def parent (p : Place) : Place :=
  match p.base, p.names with
  | .above n, [] => ⟨.above (n + 1), []⟩
  | .root, [] => p
  | base, names => ⟨base, names.dropLast⟩

/-- Where a name leads from a directory: a dot stays there, two dots lead back. -/
def enter (p : Place) (name : String) : Place :=
  if name = "." then p
  else if name = ".." then p.parent
  else { p with names := p.names ++ [name] }

end Place

structure Path where
  start : Place
  names : List String
  /-- A slash follows the last name. -/
  slashed : Bool
  /-- The bytes of the text. -/
  size : Nat
deriving DecidableEq, Repr

namespace Path

/-- The path that a text stands for. Slashes that follow one another count as one. -/
def ofText (text : String) : Path :=
  let pieces := (Text.pieces (· == '/') text.toList).map String.ofList
  { start := if "/".isPrefixOf text then ⟨.root, []⟩ else .here
    names := pieces.filter (· ≠ "")
    slashed := pieces.getLast? == some ""
    size := text.utf8ByteSize }

/-- What follows the last dot of a path's last name, unless the name has no other part. -/
def extension? (path : Path) : Option String :=
  match path.names.getLast? with
  | none => none
  | some name =>
    match (Text.pieces (· == '.') name.toList).reverse with
    | last :: before :: more =>
      if more.isEmpty ∧ before.isEmpty then none else some (String.ofList last)
    | _ => none

/-- The place a path leads to, if everything on the way is a directory. -/
def place (path : Path) : Place := path.names.foldl Place.enter path.start

end Path

inductive Entry where
  | file (bytes : List UInt8)
  | directory
deriving DecidableEq, Repr

structure Files where
  entries : List (Place × Entry)

namespace Files

def empty : Files := ⟨[]⟩

instance : Inhabited Files := ⟨empty⟩

/-- What lies at a place. A directory is there when it is known or listed, or when something lies
in it. -/
def at? (files : Files) (p : Place) : Option Entry :=
  match files.entries.lookup p with
  | some entry => some entry
  | none =>
    if p.names.isEmpty || files.entries.any fun (q, _) =>
        q.base == p.base && p.names.isPrefixOf q.names then
      some .directory
    else none

/-- The longest name, in bytes. -/
def longestName : Nat := 255

def longestPath : Nat := 4095

def enter (p : Place) (name : String) : Except FileFault Place :=
  if longestName < name.utf8ByteSize then .error .nameTooLong else .ok (p.enter name)

def walk (files : Files) (p : Place) : List String → Except FileFault Place
  | [] => .ok p
  | name :: rest => do
    let next ← enter p name
    match files.at? next with
    | some .directory => files.walk next rest
    | some (.file _) => .error .notDirectory
    | none => .error .notFound

/-- The directory in which the last name of a path is looked up. -/
def directory (files : Files) (path : Path) : Except FileFault Place :=
  if longestPath < path.size then .error .nameTooLong
  else if path.size = 0 then .error .notFound
  else files.walk path.start path.names.dropLast

def read (files : Files) (path : Path) : Except FileFault (List UInt8) := do
  let parent ← files.directory path
  let p ← match path.names.getLast? with
    | some name => enter parent name
    | none => .ok parent
  match files.at? p with
  | some (.file bytes) => if path.slashed then .error .notDirectory else .ok bytes
  | some .directory => .error .isDirectory
  | none => .error .notFound

/-- The place of a file that is made or replaced. A slash behind the name asks for a directory,
whatever is there. -/
def target (files : Files) (path : Path) : Except FileFault Place := do
  let parent ← files.directory path
  match path.names.getLast? with
  | none => .error .isDirectory
  | some name =>
    if path.slashed then .error .isDirectory
    else
      let p ← enter parent name
      if files.at? p = some .directory then .error .isDirectory else .ok p

def write (files : Files) (path : Path) (bytes : List UInt8) : Except FileFault Files := do
  let p ← files.target path
  return ⟨(p, .file bytes) :: files.entries.filter (·.1 != p)⟩

end Files

end LongMode.CommandLine

import LongMode.Log.Level
/-!
The log. A message is written if its category is to be heard at its level, and if the category has
not used up its messages. The first message turned away is reported at once, and those after it when
a message gets through again.
-/

namespace LongMode

namespace Log

structure Config where
  /-- For categories without a level of their own. -/
  general : Level := .off
  /-- The category's own level; `off` where it has none. -/
  specific : Vector Level 5 := Vector.replicate 5 .off
  /-- How many messages of one category are written. -/
  limit : Nat := 60

namespace Config

def setSpecific (c : Config) (category : Category) (level : Level) : Config :=
  { c with specific := c.specific.set category.index level }

def silence (c : Config) : Config :=
  { c with general := .off, specific := Vector.replicate 5 .off }

def inForce (c : Config) (category : Category) : Level :=
  match c.specific[category.index] with
  | .off => c.general
  | level => level

def hears (c : Config) (category : Category) (level : Level) : Bool :=
  level.rank ≤ (c.inForce category).rank

end Config

/-- How many messages of a category were written and turned away. -/
structure Quota where
  written : Nat := 0
  /-- Messages turned away and not reported yet. -/
  dropped : Nat := 0
  /-- Some were turned away and reported. -/
  reported : Bool := false
deriving DecidableEq, Repr

namespace Quota

/-- One more message: whether it is written, and the number of messages to report as dropped. -/
def accept (q : Quota) (limit : Nat) : Quota × Bool × Nat :=
  if q.written < limit then
    ({ q with written := q.written + 1, dropped := 0, reported := q.reported || q.dropped != 0 },
      true, q.dropped)
  else if q.reported then ({ q with dropped := q.dropped + 1 }, false, 0)
  else ({ q with dropped := 0, reported := true }, false, q.dropped + 1)

end Quota

end Log

structure Log where
  config : Log.Config := {}
  quotas : Vector Log.Quota 5 := Vector.replicate 5 {}
  /-- The lines written, the last one first. -/
  lines : List String := []

namespace Log

instance : Inhabited Log := ⟨{}⟩

def line (category : Category) (text : String) : String := "[" ++ category.name ++ "] " ++ text

def droppedText (count : Nat) : String :=
  "WARNING: Rate limit exceeded, " ++ toString count ++
    " log message(s) dropped in the last second"

/-- The log after a message, and whether the message was written. The text is only worked out
then. -/
def offer (log : Log) (category : Category) (level : Level) (text : Unit → String) : Log × Bool :=
  if log.config.hears category level then
    let (quota, admitted, dropped) := log.quotas[category.index].accept log.config.limit
    let quotas := log.quotas.set category.index quota
    let lines := if dropped = 0 then log.lines else line category (droppedText dropped) :: log.lines
    let lines := if admitted then line category (text ()) :: lines else lines
    ({ log with quotas, lines }, admitted)
  else (log, false)

def write (log : Log) (category : Category) (level : Level) (text : Unit → String) : Log :=
  (log.offer category level text).1

end Log

end LongMode

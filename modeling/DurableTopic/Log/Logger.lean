import DurableTopic.Log.Level
import DurableTopic.Log.Line
/-! Loggers keep the lines that are grave enough for them. -/

namespace DurableTopic.Log

/-- A line before it is written. -/
structure Entry where
  level : Level
  message : String
  fields : List Field := []
  deriving Repr, DecidableEq, Inhabited

namespace Entry

def text (e : Entry) : String := line e.message e.fields

/-- The written line behind the name of its level. -/
def labelled (e : Entry) : String := e.level.name ++ " " ++ e.text

end Entry

/-- A logger passes the entries at or above its level; without a level it passes none. -/
structure Logger where
  level : Option Level := none
  passed : List Entry := []
  deriving Repr, DecidableEq, Inhabited

namespace Logger

def passes (g : Logger) (l : Level) : Bool :=
  match g.level with
  | some threshold => threshold.rank ≤ l.rank
  | none => false

def log (g : Logger) (e : Entry) : Logger :=
  if g.passes e.level then { g with passed := g.passed ++ [e] } else g

/-- The written lines, oldest first. -/
def lines (g : Logger) : List String := g.passed.map Entry.labelled

def clear (g : Logger) : Logger := { g with passed := [] }

end Logger
end DurableTopic.Log

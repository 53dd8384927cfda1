import DurableTopic.Failure
/-! Levels of log lines and their names. -/

namespace DurableTopic.Log

/-- How grave a log line is. A logger at `off` passes nothing. -/
inductive Level where
  | trace | debug | info | warning | error | critical | off
  deriving Repr, DecidableEq, Inhabited

namespace Level

/-- All levels, the least grave first. -/
def all : List Level := [trace, debug, info, warning, error, critical, off]

def rank : Level → Nat
  | trace => 0
  | debug => 1
  | info => 2
  | warning => 3
  | error => 4
  | critical => 5
  | off => 6

def name : Level → String
  | trace => "trace"
  | debug => "debug"
  | info => "info"
  | warning => "warning"
  | error => "error"
  | critical => "critical"
  | off => "off"

/-- The level with this name. Two levels have a short name too; case counts. -/
def ofName? : String → Option Level
  | "warn" => some warning
  | "err" => some error
  | s => all.find? (·.name = s)

/-- The level with this name, or a failure that shows the name. -/
def read (s : String) : Except Failure Level :=
  match ofName? s with
  | some l => .ok l
  | none => .error (.runtime ("Unknown log level: " ++ s))

theorem ofName?_name (l : Level) : ofName? l.name = some l := by cases l <;> rfl

end Level
end DurableTopic.Log

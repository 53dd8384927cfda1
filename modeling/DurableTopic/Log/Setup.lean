import DurableTopic.Config.Settings
import DurableTopic.Environment
import DurableTopic.Log.Logger
/-! Setting a logger up: the environment wins over the configuration. -/

namespace DurableTopic.Log

def defaultPattern : String := "%Y-%m-%dT%H:%M:%S.%e%z [%^%l%$] %v"

def levelVariable : String := "TOPICSTORE_LOG_LEVEL"
def patternVariable : String := "TOPICSTORE_LOG_PATTERN"

/-- A setting: from the environment, also if it is empty there, or configured, or the fallback. -/
def setting (env : Environment) (name configured fallback : String) : String :=
  (env.get? name).getD (if configured.isEmpty then fallback else configured)

/-- What a logger is set up with. -/
structure Setup where
  level : Level
  pattern : String
  deriving Repr, DecidableEq, Inhabited

def Setup.resolve (c : Config.Logging) (env : Environment) : Except Failure Setup := do
  let level ← Level.read (setting env levelVariable c.level "info")
  return ⟨level, setting env patternVariable c.pattern defaultPattern⟩

/-- The logger after it is set up, or as it was if that fails. -/
def Logger.start (g : Logger) (c : Config.Logging) (env : Environment) :
    Except Failure Setup × Logger :=
  match Setup.resolve c env with
  | .ok s => (.ok s, { g with level := some s.level })
  | .error f => (.error f, g)

/-- The logger after it is shut down: it passes nothing. -/
def Logger.stop (g : Logger) : Logger := { g with level := none }

end DurableTopic.Log

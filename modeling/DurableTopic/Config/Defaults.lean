import DurableTopic.Config.Settings
import DurableTopic.Failure
/-! What a configuration leaves open is filled in; what it must say is required. -/

namespace DurableTopic.Config

def defaultBatchSize : UInt32 := 100

def defaultBusyTimeoutMs : UInt32 := 5000

def defaultMaxConnections : UInt32 := 16

/-- A number, or what stands for zero. -/
def orElse (n fallback : UInt32) : UInt32 := if n = 0 then fallback else n

def invalid (what : String) : Failure := .runtime ("Invalid configuration: " ++ what)

def required (field text : String) : Except Failure Unit :=
  if text.isEmpty then .error (invalid (field ++ " is required")) else .ok ()

/-- A database with nothing left open. -/
def Database.filled : Database → Except Failure Database
  | memory => .ok memory
  | sqlite path walMode busyTimeoutMs => do
    required "database.sqlite.path" path
    return sqlite path walMode (orElse busyTimeoutMs defaultBusyTimeoutMs)
  | postgres connectionUri maxConnections => do
    required "database.postgres.connection_uri" connectionUri
    return postgres connectionUri (orElse maxConnections defaultMaxConnections)

/-- A configuration with nothing left open. -/
def Settings.filled (s : Settings) : Except Failure Settings := do
  required "store.destination" s.store.destination
  let database ← (s.database.getD .memory).filled
  return { s with
    store := { s.store with defaultBatchSize := orElse s.store.defaultBatchSize defaultBatchSize }
    database := some database }

end DurableTopic.Config

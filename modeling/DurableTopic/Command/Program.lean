import DurableTopic.Command.Run
import DurableTopic.Config.Load
import DurableTopic.Machine
/-! The administration program as a whole: it reads its configuration, sets the log and the telemetry
up, opens the store, runs one command on it, and takes everything down again. -/

namespace DurableTopic.Command

/-- What a run of the program leaves for its caller. -/
structure Report where
  code : UInt32
  output : Bytes := []
  errors : Bytes := []
  deriving Repr, DecidableEq, Inhabited

namespace Report

/-- A run that ends in a failure. The code tells the families of failure apart. -/
def failed (f : Failure) (output : Bytes) : Report :=
  let (code, what) : UInt32 × String := match f with
    | .invalidArgument _ => (2, "invalid argument")
    | .store c _ => (3, "store failure (" ++ c.name ++ ")")
    | _ => (1, "fatal")
  ⟨code, output, Text.utf8 (what ++ ": " ++ f.message ++ "\n")⟩

/-- A run that only explains how the program is used. -/
def misused : Report := ⟨1, Text.utf8 usage, []⟩

end Report

/-- The words of a command behind the name of the configuration. There is at least one. -/
def words? : List String → Option (List String)
  | "--config" :: _ :: w :: ws => some (w :: ws)
  | _ => none

end Command

namespace Machine

open Command (Report)

def start (m : Machine) (s : Config.Settings) : Except Failure Unit × Machine :=
  match m.logger.start s.logging m.environment with
  | (.error f, logger) => (.error f, { m with logger })
  | (.ok _, logger) =>
    let telemetry := (m.telemetry.startTracing s.telemetry m.environment).2
    (.ok (), { m with logger, telemetry := (telemetry.startMetrics s.telemetry m.environment).2 })

def stop (m : Machine) : Machine :=
  { m with telemetry := m.telemetry.stopMetrics.stopTracing, logger := m.logger.stop }

/-- Runs the words of a command on the store that settings describe, or explains the program if they
are no command. -/
def command (m : Machine) (s : Config.Settings) (words : List String) :
    Option (Report × Machine) := do
  let work : Store.Session (Option Command.Outcome) :=
    (Command.read? words).mapM (·.run s.store.defaultBatchSize)
  let (r, m) ← m.withStore s (.ok <$> work)
  return match r with
    | .error f => (.failed f [], m)
    | .ok none => (.misused, m.stop)
    | .ok (some (.ok (), printed)) => (⟨0, printed.output, []⟩, m.stop)
    | .ok (some (.error f, printed)) => (.failed f printed.output, m)

/-- Runs the program with a configuration document, or the reason why there is none, and arguments,
each of which ends before its first NUL. A failure leaves the telemetry and the log up. -/
def run (m : Machine) (document : Except String Config.Tree) (args : List String)
    (p : Config.Printer := .lenient) : Option (Report × Machine) :=
  match Command.words? (args.map Text.beforeNul) with
  | none => some (.misused, m)
  | some words =>
    match Config.load .file document p with
    | .error f => some (.failed f [], m)
    | .ok s =>
      match m.start s with
      | (.error f, m) => some (.failed f [], m)
      | (.ok (), m) => m.command s words

end Machine
end DurableTopic

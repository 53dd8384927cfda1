import DurableTopic.Config.Defaults
import DurableTopic.Config.Value
/-! Reading a configuration from a document, whose value is printed and read again. Every field has a
name and a type; a null leaves a field as it is, and anything unknown or of another type is refused. -/

namespace DurableTopic.Config

namespace Value

def text? : Value → Option String
  | text s => some s
  | _ => none

def flag? : Value → Option Bool
  | flag b => some b
  | _ => none

def word? : Value → Option UInt32
  | number x => x.natural?.bind fun n => if n < 0x100000000 then some (UInt32.ofNat n) else none
  | _ => none

def fields? : Value → Option (List (String × Value))
  | struct fs => some fs
  | _ => none

/-- Sets a field to what a value holds; a null sets nothing. -/
def setting {σ α : Type} (v : Value) (read : Value → Option α) (s : σ) (set : α → σ) : Option σ :=
  match v with
  | null => some s
  | v => (read v).map set

/-- Reads a struct field by field. -/
def foldFields {σ : Type} (step : σ → String → Value → Option σ) (start : σ) (v : Value) :
    Option σ := do
  (← v.fields?).foldlM (fun s (k, v) => step s k v) start

end Value

def Logging.set (s : Logging) (field : String) (v : Value) : Option Logging :=
  match field with
  | "level" => v.setting (·.text?) s fun x => { s with level := x }
  | "pattern" => v.setting (·.text?) s fun x => { s with pattern := x }
  | _ => none

/-- The parts of a database section in a file. -/
structure FileSection where
  path : String := ""
  walMode : Option Bool := none
  busyTimeoutMs : UInt32 := 0

def FileSection.set (s : FileSection) (field : String) (v : Value) : Option FileSection :=
  match field with
  | "path" => v.setting (·.text?) s fun x => { s with path := x }
  | "wal_mode" => v.setting (·.flag?) s fun x => { s with walMode := some x }
  | "busy_timeout_ms" => v.setting (·.word?) s fun x => { s with busyTimeoutMs := x }
  | _ => none

/-- The parts of a database section on a server. -/
structure ServerSection where
  connectionUri : String := ""
  maxConnections : UInt32 := 0

def ServerSection.set (s : ServerSection) (field : String) (v : Value) : Option ServerSection :=
  match field with
  | "connection_uri" => v.setting (·.text?) s fun x => { s with connectionUri := x }
  | "max_connections" => v.setting (·.word?) s fun x => { s with maxConnections := x }
  | _ => none

def Database.read? (kind : String) (v : Value) : Option Database :=
  match kind with
  | "memory" => v.foldFields (fun _ _ _ => none) .memory
  | "sqlite" =>
    (v.foldFields FileSection.set {}).map fun s => .sqlite s.path s.walMode s.busyTimeoutMs
  | "postgres" =>
    (v.foldFields ServerSection.set {}).map fun s => .postgres s.connectionUri s.maxConnections
  | _ => none

/-- Chooses the database; a second choice is refused. -/
def Database.choose (chosen : Option Database) (kind : String) (v : Value) :
    Option (Option Database) :=
  match v, chosen with
  | .null, _ => if kind ∈ ["memory", "sqlite", "postgres"] then some chosen else none
  | v, none => (Database.read? kind v).map some
  | _, some _ => none

def Topic.set (s : Topic) (field : String) (v : Value) : Option Topic :=
  match field with
  | "destination" => v.setting (·.text?) s fun x => { s with destination := x }
  | "default_batch_size" => v.setting (·.word?) s fun x => { s with defaultBatchSize := x }
  | _ => none

def Telemetry.set (s : Telemetry) (field : String) (v : Value) : Option Telemetry :=
  match field with
  | "service_name" => v.setting (·.text?) s fun x => { s with serviceName := x }
  | "otlp_endpoint" => v.setting (·.text?) s fun x => { s with otlpEndpoint := x }
  | "http_transport" => v.setting (·.flag?) s fun x => { s with httpTransport := x }
  | "tracing_enabled" => v.setting (·.flag?) s fun x => { s with tracingEnabled := x }
  | "metrics_enabled" => v.setting (·.flag?) s fun x => { s with metricsEnabled := x }
  | _ => none

def Settings.set (s : Settings) (field : String) (v : Value) : Option Settings :=
  match field with
  | "logging" => v.setting (·.foldFields Logging.set {}) s fun x => { s with logging := x }
  | "database" => v.setting (·.foldFields Database.choose none) s fun x => { s with database := x }
  | "store" => v.setting (·.foldFields Topic.set {}) s fun x => { s with store := x }
  | "telemetry" => v.setting (·.foldFields Telemetry.set {}) s fun x => { s with telemetry := x }
  | _ => none

def Settings.ofValue? (v : Value) : Option Settings := v.foldFields Settings.set {}

/-- What a printer of values says against the numbers that it does not print. -/
abbrev Printer := Number.Binary64 → Option String

def Printer.lenient : Printer := fun _ => none

/-- Only finite numbers are printed. -/
def Printer.strict : Printer := fun x => if x.isFinite then none else some "(protobuf message)"

/-- What is said of a value that cannot be printed, for a reason. -/
def unprintable (reason : String) : Failure :=
  .runtime ("Failed to serialize YAML to JSON: " ++ reason)

/-- The settings that a value holds, with nothing left open. -/
def Settings.ofPrinted (p : Printer) (v : Value) : Except Failure Settings :=
  match v.numbers.findSome? p with
  | some reason => .error (unprintable reason)
  | none =>
    match Settings.ofValue? v with
    | some s => s.filled
    | none => .error (invalid "(protobuf message)")

/-- The settings in a document, with nothing left open. A document without a root is one that sets
nothing. -/
def ofTree (p : Printer) : Tree → Except Failure Settings
  | .undefined | .null => Settings.filled {}
  | t => do Settings.ofPrinted p (← Value.ofTree t)

/-- Where a document comes from. -/
inductive Source where
  | text | file
  deriving Repr, DecidableEq, Inhabited

def Source.unreadable (reason : String) : Source → Failure
  | text => .runtime ("Failed to parse YAML config: " ++ reason)
  | file => .runtime ("Failed to load YAML config: " ++ reason)

/-- Loads a configuration from a document, or says why there is none. -/
def load (source : Source) (document : Except String Tree) (p : Printer := .lenient) :
    Except Failure Settings :=
  match document with
  | .ok t => ofTree p t
  | .error reason => .error (source.unreadable reason)

end DurableTopic.Config

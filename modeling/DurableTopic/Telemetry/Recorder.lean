import DurableTopic.SubscriberKey
import DurableTopic.Telemetry.Event
/-! The telemetry of a running program. Spans and measurements made before a provider is installed
are lost; one that is installed keeps recording after it is stopped. The instruments are made
once, from the provider that is installed when they are first used. -/

namespace DurableTopic.Telemetry

def instrumentation : String := "topicstore"

/-- Counts finished store operations by name and outcome. -/
def operationCount : Instrument :=
  ⟨.counter, "topicstore.operation.count", "1", "Store operations by name and outcome"⟩

/-- Measures how long store operations take. -/
def operationLatency : Instrument :=
  ⟨.histogram, "topicstore.operation.latency_ms", "ms", "Store operation latency in milliseconds"⟩

/-- Counts the messages that listeners accepted. -/
def recoveredMessages : Instrument :=
  ⟨.counter, "topicstore.recovery.messages", "1", "Messages handed to listeners by recovery"⟩

/-- Counts the recovery passes whose scan failed. -/
def scanFailures : Instrument :=
  ⟨.counter, "topicstore.recovery_scan_failures", "1",
    "Recovery passes cut short by a store failure"⟩

/-- All instruments, in the order in which they are made. -/
def instruments : List Instrument :=
  [operationCount, operationLatency, recoveredMessages, scanFailures]

/-- Whether a tool records what it is told. -/
inductive Tool where
  | silent | recording
  deriving Repr, DecidableEq, Inhabited

structure Recorder where
  /-- Whether the program is built with telemetry at all. -/
  built : Bool := false
  /-- Whether a provider of a signal was ever installed. -/
  tracesInstalled : Bool := false
  metricsInstalled : Bool := false
  /-- Whether the program still holds the provider that it installed last. -/
  tracesHeld : Bool := false
  metricsHeld : Bool := false
  /-- The tracer in use, if one was looked up. -/
  tracer : Option Tool := none
  /-- The instruments, if they are made. -/
  meters : Option Tool := none
  spans : Nat := 0
  events : List Event := []
  deriving Repr, DecidableEq, Inhabited

/-- A span that is being recorded, or one that is not. -/
abbrev Span := Option Nat

namespace Recorder

def tell (r : Recorder) (es : List Event) : Recorder := { r with events := r.events ++ es }

def clear (r : Recorder) : Recorder := { r with events := [] }

def stopTracing (r : Recorder) : Recorder :=
  if r.built then
    let r := if r.tracesHeld then r.tell [.flushed .traces, .stopped .traces] else r
    { r with tracesHeld := false, tracer := none }
  else r

def stopMetrics (r : Recorder) : Recorder :=
  if r.built then
    let r := if r.metricsHeld then r.tell [.flushed .metrics, .stopped .metrics] else r
    { r with metricsHeld := false }
  else r

/-- Starts tracing if it is enabled, and stops it otherwise. Says whether it runs. -/
def startTracing (r : Recorder) (c : Config.Telemetry) (env : Environment) : Bool × Recorder :=
  if !r.built then (false, r)
  else if !c.tracingEnabled then (false, r.stopTracing)
  else
    let e := Endpoint.resolve c env .traces
    (true, { r.tell [.exporter e, .batchProcessor, .provider .traces e.serviceName,
        .installed .traces, .tracer instrumentation] with
      tracesInstalled := true, tracesHeld := true, tracer := some .recording })

def exportIntervalMs : Nat := 1000

/-- Starts metrics if they are enabled, and stops them otherwise. Says whether they run. -/
def startMetrics (r : Recorder) (c : Config.Telemetry) (env : Environment) : Bool × Recorder :=
  if !r.built then (false, r)
  else if !c.metricsEnabled then (false, r.stopMetrics)
  else
    let e := Endpoint.resolve c env .metrics
    (true, { r.tell [.exporter e, .reader exportIntervalMs, .provider .metrics e.serviceName,
        .readerAdded, .installed .metrics] with
      metricsInstalled := true, metricsHeld := true })

/-- Looks a tracer up, unless one is in use. -/
def withTracer (r : Recorder) : Tool × Recorder :=
  match r.tracer with
  | some t => (t, r)
  | none =>
    if r.tracesInstalled then
      (.recording, { r.tell [.tracer instrumentation] with tracer := some .recording })
    else (.silent, { r with tracer := some .silent })

/-- Starts a span around an operation on a destination, for one subscriber or for none. -/
def startSpan (r : Recorder) (operation destination : String) (key : Option SubscriberKey) :
    Span × Recorder :=
  if !r.built then (none, r)
  else match r.withTracer with
    | (.silent, r) => (none, r)
    | (.recording, r) =>
      let n := r.spans + 1
      let subscriber := match key with
        | some k =>
          [.attribute n "topicstore.client_id" (.text k.client),
            .attribute n "topicstore.subscription" (.text k.display)]
        | none => []
      (some n, { r.tell ([.spanStarted n ("topicstore." ++ operation),
          .attribute n "topicstore.destination" (.text destination)] ++ subscriber ++
          [.activated n]) with
        spans := n })

/-- Tells something of a span, if it is recorded. -/
def tellSpan (r : Recorder) (s : Span) (es : Nat → List Event) : Recorder :=
  match s with
  | some n => r.tell (es n)
  | none => r

def setAttribute (r : Recorder) (s : Span) (key : String) (value : Int) : Recorder :=
  r.tellSpan s fun n => [.attribute n key (.int value)]

/-- Notes a failure on a span. -/
def noteFailure (r : Recorder) (s : Span) (description : String) : Recorder :=
  r.tellSpan s fun n =>
    [.noted n "exception" [("exception.message", .text description)], .failed n description]

def endSpan (r : Recorder) (s : Span) : Recorder := r.tellSpan s fun n => [.spanEnded n]

/-- Makes the instruments, unless they are made. -/
def withMeters (r : Recorder) : Tool × Recorder :=
  match r.meters with
  | some t => (t, r)
  | none =>
    if r.metricsInstalled then
      (.recording, { r.tell (.meter instrumentation "0.1.0" :: instruments.map .created) with
        meters := some .recording })
    else (.silent, { r with meters := some .silent })

def measure (r : Recorder) (es : List Event) : Recorder :=
  if !r.built then r
  else match r.withMeters with
    | (.silent, r) => r
    | (.recording, r) => r.tell es

/-- Counts a finished operation and measures how long it took. -/
def countOperation (r : Recorder) (operation destination : String) (success : Bool) : Recorder :=
  let attributes : Attributes :=
    [("op", .text operation), ("destination", .text destination), ("success", .flag success)]
  r.measure [.added operationCount.name 1 attributes, .recorded operationLatency.name attributes]

/-- Counts messages that a listener accepted. -/
def countRecovered (r : Recorder) (destination : String) (count : Nat) : Recorder :=
  r.measure (if count = 0 then []
    else [.added recoveredMessages.name count [("destination", .text destination)]])

def countScanFailure (r : Recorder) (destination : String) : Recorder :=
  r.measure [.added scanFailures.name 1 [("destination", .text destination)]]

end Recorder
end DurableTopic.Telemetry

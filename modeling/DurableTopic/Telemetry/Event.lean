import DurableTopic.Telemetry.Endpoint
/-! What a program tells its telemetry: how providers are set up and torn down, spans, and
measurements. -/

namespace DurableTopic.Telemetry

inductive Value where
  | text (s : String)
  | int (i : Int)
  | flag (b : Bool)
  deriving Repr, DecidableEq, Inhabited

abbrev Attributes := List (String × Value)

/-- How an instrument measures. -/
inductive InstrumentKind where
  | counter | histogram
  deriving Repr, DecidableEq, Inhabited

structure Instrument where
  kind : InstrumentKind
  name : String
  unit : String
  description : String
  deriving Repr, DecidableEq, Inhabited

/-- One call to the telemetry. -/
inductive Event where
  | exporter (e : Endpoint)
  | batchProcessor
  | provider (s : Signal) (serviceName : String)
  | installed (s : Signal)
  | tracer (name : String)
  | reader (intervalMs : Nat)
  | readerAdded
  | flushed (s : Signal)
  | stopped (s : Signal)
  | spanStarted (span : Nat) (name : String)
  | attribute (span : Nat) (key : String) (value : Value)
  | activated (span : Nat)
  | noted (span : Nat) (name : String) (attributes : Attributes)
  | failed (span : Nat) (description : String)
  | spanEnded (span : Nat)
  | meter (name version : String)
  | created (i : Instrument)
  | added (counter : String) (value : Nat) (attributes : Attributes)
  /-- A measured duration; its value is not kept. -/
  | recorded (histogram : String) (attributes : Attributes)
  deriving Repr, DecidableEq

end DurableTopic.Telemetry

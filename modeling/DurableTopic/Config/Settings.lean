/-! The configuration of a program that runs a store. Every text is empty and every number zero
until it is set. -/

namespace DurableTopic.Config

structure Logging where
  level : String := ""
  pattern : String := ""
  deriving Repr, DecidableEq, Inhabited

inductive Database where
  | memory
  | sqlite (path : String) (walMode : Option Bool) (busyTimeoutMs : UInt32)
  | postgres (connectionUri : String) (maxConnections : UInt32)
  deriving Repr, DecidableEq, Inhabited

structure Topic where
  destination : String := ""
  defaultBatchSize : UInt32 := 0
  deriving Repr, DecidableEq, Inhabited

structure Telemetry where
  serviceName : String := ""
  otlpEndpoint : String := ""
  httpTransport : Bool := false
  tracingEnabled : Bool := false
  metricsEnabled : Bool := false
  deriving Repr, DecidableEq, Inhabited

structure Settings where
  logging : Logging := {}
  database : Option Database := none
  store : Topic := {}
  telemetry : Telemetry := {}
  deriving Repr, DecidableEq, Inhabited

end DurableTopic.Config

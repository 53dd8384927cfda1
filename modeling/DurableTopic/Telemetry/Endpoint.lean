import DurableTopic.Config.Settings
import DurableTopic.Environment
/-! Where telemetry is sent: the configured endpoint wins over the variable of the signal, that over
the variable for all signals, and that over the collector on this host. -/

namespace DurableTopic.Telemetry

inductive Signal where
  | traces | metrics
  deriving Repr, DecidableEq, Inhabited

/-- Where and how a signal is sent. -/
structure Endpoint where
  serviceName : String
  address : String
  http : Bool
  secure : Bool
  deriving Repr, DecidableEq, Inhabited

namespace Signal

/-- The variable that names the endpoint of a signal. -/
def variableName : Signal → String
  | traces => "OTEL_EXPORTER_OTLP_TRACES_ENDPOINT"
  | metrics => "OTEL_EXPORTER_OTLP_METRICS_ENDPOINT"

/-- The path of a signal at a collector that is reached over HTTP. -/
def path : Signal → String
  | traces => "/v1/traces"
  | metrics => "/v1/metrics"

end Signal

def commonVariable : String := "OTEL_EXPORTER_OTLP_ENDPOINT"

/-- The collector on this host. -/
def localAddress (s : Signal) (http : Bool) : String :=
  if http then "http://localhost:4318" ++ s.path else "localhost:4317"

def Endpoint.resolve (c : Config.Telemetry) (env : Environment) (s : Signal) : Endpoint :=
  let address :=
    if !c.otlpEndpoint.isEmpty then c.otlpEndpoint
    else ((env.get? s.variableName).or (env.get? commonVariable)).getD
      (localAddress s c.httpTransport)
  { serviceName := if c.serviceName.isEmpty then "topicstore" else c.serviceName
    address
    http := c.httpTransport
    secure := address.startsWith "https://" }

end DurableTopic.Telemetry

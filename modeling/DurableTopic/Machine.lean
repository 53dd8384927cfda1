import DurableTopic.Log.Setup
import DurableTopic.Repository.Opening
import DurableTopic.Store.Session
/-! The machine that a program runs on, and the store that it opens there. -/

namespace DurableTopic

open Store (Host Session)

/-- What outlives a store: the environment, the files, the log and the telemetry. -/
structure Machine where
  environment : Environment := {}
  volume : Repository.Embedded.Volume := {}
  logger : Log.Logger := {}
  telemetry : Telemetry.Recorder := {}
  deriving Repr

namespace Machine

/-- Opens the store that settings describe. Without a database there, messages stay in memory. -/
def openStore (m : Machine) (s : Config.Settings) : Except Failure Host × Machine :=
  match Repository.connect m.volume (s.database.getD .memory) with
  | (.error f, volume) => (.error f, { m with volume })
  | (.ok (repository, ready), volume) =>
    let m := { m with volume, logger := m.logger.log ready }
    let destination := s.store.destination
    match Store.vet true true destination with
    | .error f => (.error f, m)
    | .ok () =>
      (.ok { destination, requested := destination, backend := { repository }, logger := m.logger,
             telemetry := m.telemetry }, m)

def closeStore (m : Machine) (h : Host) : Machine where
  environment := m.environment
  volume := Repository.closed m.volume h.backend.repository
  logger := h.logger
  telemetry := h.telemetry

/-- Works on the store that settings describe. There is no result if the work waits forever. -/
def withStore {α : Type} (m : Machine) (s : Config.Settings) (x : Session (Except Failure α)) :
    Option (Except Failure α × Machine) :=
  match m.openStore s with
  | (.error f, m) => some (.error f, m)
  | (.ok h, m) => (StateT.run x h).map fun (r, h) => (r, m.closeStore h)

end Machine
end DurableTopic

import DurableTopic.Config.Defaults
import DurableTopic.Repository.Basic
import DurableTopic.Repository.Embedded.Volume
/-! Opening the repository that a configuration asks for. -/

namespace DurableTopic.Repository

/-- A line that says which backend is ready. -/
def readyEntry (backend : String) (fields : List Log.Field) : Log.Entry :=
  ⟨.info, backend ++ " backend ready", fields⟩

/-- Opens a repository, and says so in the log. This program is built without a client for database
servers. -/
def connect (v : Embedded.Volume) :
    Config.Database → Except Failure (Repository × Log.Entry) × Embedded.Volume
  | .memory => (.ok (inMemory, readyEntry "memory" []), v)
  | .sqlite path walMode busyTimeoutMs =>
    match v.connect path (walMode.getD true)
      (Config.orElse busyTimeoutMs Config.defaultBusyTimeoutMs) with
    | (.ok c, v) => (.ok (.embedded c none, readyEntry "sqlite" [.text "path" path]), v)
    | (.error e, v) => (.error (.runtime e), v)
  | .postgres .. => (.error (.runtime "postgres backend requested but not enabled at build time"), v)

/-- The files after a repository is closed. -/
def closed (v : Embedded.Volume) : Repository → Embedded.Volume
  | .memory .. => v
  | .embedded c _ => v.keep c

end DurableTopic.Repository

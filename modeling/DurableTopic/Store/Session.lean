import DurableTopic.Store.Recovery
import DurableTopic.Store.Script
/-! Working on a store from outside: starting it, starting it again, looking into its repository and
giving it faults. -/

namespace DurableTopic.Store

/-- What is refused when a store is made. -/
def vet (hasRepository hasCodec : Bool) (destination : String) : Except Failure Unit :=
  if !hasRepository || !hasCodec then
    .error (.invalidArgument "topic message store needs a repository and a codec")
  else if destination.isEmpty then
    .error (.invalidArgument "topic message store needs a destination")
  else .ok ()

namespace Session

def thread : Cursor.Thread := "main"

/-- Runs an operation on the destination that the store serves, without a listener. -/
def run {α : Type} (op : String → Op α) : Session (Except Failure α) := do
  (op (← get).destination).serve Listener.none thread

def onBackend {α : Type} (f : Repository.Faulty → α × Repository.Faulty) : Session α :=
  modifyGet fun h => let (a, backend) := f h.backend; (a, { h with backend })

/-- A new store over the same repository, with cold cursors. A refused one leaves the old store. -/
def restart (destination : Option String) : Session (Except Failure Unit) := do
  let d := destination.getD (← get).requested
  let r := vet true true d
  modify fun h =>
    let h := { h with requested := d }
    match r with
    | .ok () => { h with destination := d, cursors := {} }
    | .error _ => h
  return r

/-- Gives a kind of call a fault, in place of the one it had. -/
def fail (p : Repository.Point) (f : Repository.Fault) : Session Unit :=
  onBackend fun b => ((), { b with faults := { b.faults with table := b.faults.table.put p f } })

def heal : Session Unit := onBackend fun b => ((), { b with faults := {} })

/-- Makes scans start lower, or show rows twice. -/
def distortScans (shift : Int) (twice : Bool) : Session Unit :=
  onBackend fun b => ((), { b with faults := { b.faults with shift, twice } })

def notEmbedded : Failure := .logic "not an embedded database"

def onConnection (f : Repository.Embedded.Connection →
    Except String Unit × Repository.Embedded.Connection) : Session (Except Failure Unit) :=
  onBackend fun b =>
    match b.repository.onConnection f with
    | some (r, repository) => (r.mapError .runtime, { b with repository })
    | none => (.error notEmbedded, b)

def execute (sql : String) : Session (Except Failure Unit) :=
  onConnection (·.runScript (Repository.Embedded.Statement.script sql))

/-- Closes the store and opens the same database again, for a new store and without faults. -/
def reopen : Session (Except Failure Unit) := do
  modify Host.close
  match ← onConnection (·.reopen) with
  | .error f => return .error f
  | .ok () => heal; restart none

/-- Does something in a transaction of its own, past all faults, and commits unless it fails. -/
def directly {α : Type} (body : Repository → Except Failure α × Repository) :
    Session (Except Failure α) := do
  match ← onBackend fun b => let (r, repository) := b.repository.begin; (r, { b with repository }) with
  | .error f => return .error f
  | .ok () =>
    let r ← onBackend fun b =>
      match body b.repository with
      | (.error f, repository) => (.error f, { b with repository })
      | (.ok a, repository) =>
        let (r, repository) := repository.commit
        (r.map fun () => a, { b with repository })
    modify Host.close
    return r

/-- Stores a row, however little it is a message. -/
def appendRow (r : Row) : Session (Except Failure Int) :=
  directly fun repository =>
    match repository.perform (.append r) with
    | (.error f, repository) => (.error f, repository)
    | (.ok a, repository) => ((a.status.require "raw append").map fun () => a.sequence, repository)

/-- What is stored of a subscriber: its persisted position, if it is registered, and how many
messages it has not acknowledged. -/
def stored (k : SubscriberKey) : Session (Except Failure (Option Watermark × Int)) := do
  let d := (← get).requested
  directly fun repository =>
    match repository.perform (.get d k) with
    | (.error f, repository) => (.error f, repository)
    | (.ok record, repository) =>
      match repository.perform (.count d k) with
      | (.error f, repository) => (.error f, repository)
      | (.ok n, repository) => (.ok (record.map (·.acked), n), repository)

def cached (k : SubscriberKey) : Session (Except Failure (Option Watermark)) :=
  run fun _ => cachedWatermark k

/-- Forgets what was logged, told to the telemetry and noted so far. -/
def forget : Session Unit :=
  modify fun h => { h with
    logger := h.logger.clear
    telemetry := h.telemetry.clear
    backend := { h.backend with notes := [] } }

end Session
end DurableTopic.Store

import DurableTopic.Log.Logger
import DurableTopic.Repository.Embedded.Connection
/-! The repository over an embedded SQL database. Its calls are single statements on one connection,
whether or not the transaction that they were made for is still active; a call made after its
transaction has ended commits by itself. -/

namespace DurableTopic.Repository.Embedded

/-- A transaction as its owner knows it. -/
structure Handle where
  committed : Bool := false
  finished : Bool := false
  deriving Repr, DecidableEq, Inhabited

/-- The rows that a statement with a limit gives: a negative limit is none. -/
def limited (rows : List Row) (limit : Int) : List Row :=
  if limit < 0 then rows else rows.take limit.toNat

/-- What a statement that only reads gives. Its failures have no code. -/
def queried {α β : Type} (r : Except String α) (f : α → β) : Except Failure β :=
  match r with
  | .ok a => .ok (f a)
  | .error e => .error (.runtime ("sqlite prepare: " ++ e))

/-- What a scan gives. -/
def scanned (r : Except String (List Row)) : Scan :=
  match r with
  | .ok rows => { rows }
  | .error e => ⟨[], .ok (internal e)⟩

/-- What a write reports. -/
def reported (r : Except Status Unit) : Except Failure Status :=
  .ok (match r with
    | .ok () => .success
    | .error s => s)

/-- Prepares a write: the tables that it names must exist. -/
def prepared {α : Type} (r : Except String α) : Except Status α := r.mapError internal

def perform (c : Connection) : (call : Call) → call.Reply × Connection
  | .append r =>
    match c.tables.readMessages with
    | .error e => (.ok ⟨internal e, r.sequence⟩, c)
    | .ok rows =>
      match c.write (·.insertMessage rows r) with
      | (.ok n, c) => (.ok ⟨.success, n⟩, c)
      | (.error s, c) => (.ok ⟨s, r.sequence⟩, c)
  | .resolve d id => (queried (c.tables.resolve d id) fun w => w, c)
  | .persist d k w =>
    match c.tables.readSubscriptions with
    | .error e => (.ok (internal e), c)
    | .ok rows =>
      let (r, c) := c.write (·.updateAcked rows (.of d k) w)
      (reported r, c)
  | .load d k =>
    (queried (c.tables.subscriber (.of d k)) fun r => r.elim .start (·.acked), c)
  | .scanAfter d k above limit =>
    if limit = 0 then ({}, c)
    else
      (scanned ((c.tables.joined (.of d k) fun _ => above.sequence).map
        (limited · (limitWord limit))), c)
  | .scanAll d k => (scanned (c.tables.joined (.of d k) (·.acked.sequence)), c)
  | .count d k =>
    (queried (c.tables.joined (.of d k) (·.acked.sequence)) fun rows => (rows.length : Int), c)
  | .put record retroactive =>
    match (do return (← c.tables.readSubscriptions, ← c.tables.readMessages)) with
    | .error e => (.ok (internal e), c)
    | .ok (rows, messages) =>
      let (r, c) := c.write (·.upsert rows messages record retroactive)
      (reported r, c)
  | .get d k => (queried (c.tables.subscriber (.of d k)) (·.map (·.record)), c)
  | .delete d k =>
    match c.tables.readSubscriptions with
    | .error e => (.ok (internal e), c)
    | .ok rows =>
      let (r, c) := c.write (·.deleteSubscriber rows (.of d k))
      (reported r, c)
  | .list d => (queried (c.tables.subscribers d) (·.map (·.record)), c)

/-- Starts a transaction that holds the write lock. -/
def begin (c : Connection) : Except Failure Handle × Connection :=
  let (r, c) := c.begin true
  (match r with
    | .ok () => .ok {}
    | .error e => .error (.runtime e), c)

/-- Commits whatever transaction is active on the connection. -/
def commit (h : Handle) (c : Connection) : Except Failure Unit × Handle × Connection :=
  match c.commit with
  | (.ok (), c) => (.ok (), ⟨true, true⟩, c)
  | (.error e, c) => (.error (.runtime e), h, c)

/-- Rolls back, unless the transaction is finished. -/
def rollback (h : Handle) (c : Connection) : Except Failure Unit × Handle × Connection :=
  if h.finished then (.ok (), h, c)
  else match c.rollback with
    | (.ok (), c) => (.ok (), { h with finished := true }, c)
    | (.error e, c) => (.error (.runtime e), h, c)

/-- Gives a transaction up: one that is not finished is rolled back, and a rollback that fails is
only logged. -/
def close (h : Handle) (c : Connection) : List Log.Entry × Connection :=
  if h.finished then ([], c)
  else match c.rollback with
    | (.ok (), c) => ([], c)
    | (.error e, c) =>
      ([⟨.warning, "sqlite rollback failed", [.text "error" (Text.beforeNul e)]⟩], c)

end DurableTopic.Repository.Embedded

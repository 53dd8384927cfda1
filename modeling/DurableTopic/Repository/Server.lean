import DurableTopic.Repository.Call
import DurableTopic.Repository.Server.Link
/-! The repository over a database server. A transaction has a connection of its own, which returns to
the pool when the transaction is given up. -/

namespace DurableTopic.Repository.Server

/-- A transaction as its owner knows it. -/
structure Handle where
  connection : Connection
  committed : Bool := false
  finished : Bool := false
  deriving Repr, DecidableEq, Inhabited

namespace Handle

def keyOf (destination : String) (k : SubscriberKey) : List Parameter :=
  [.text destination, .text k.client, .text k.nameOrEmpty, .flag k.name.isSome]

/-- Starts a transaction, or gives nothing if a connection has to be waited for. One that cannot
start releases its connection. -/
def begin : Request (Option Handle) := do
  match ← Link.acquire with
  | none => return none
  | some c =>
    ExceptT.lift (Link.tell (.began c))
    match ← ExceptT.lift Link.nextBegin.run with
    | .ok () => return some { connection := c }
    | .error e =>
      ExceptT.lift (Link.release c)
      throw e

def ask (h : Handle) (p : Prepared) (parameters : List Parameter) : Request (List Cells) :=
  Link.query h.connection (.prepared p) parameters

def send (h : Handle) (s : Statement) (parameters : List Parameter) : Request (List Cells) :=
  Link.query h.connection s parameters

/-- Reads the first row of an answer, if there is one. -/
def first {α : Type} (x : Request (List Cells)) (read : Cells → Except Refusal α) :
    Request (Option α) := do
  match ← x with
  | [] => return none
  | cells :: _ => some <$> ExceptT.mk (pure (read cells))

/-- Reads the first row of an answer that must have one. -/
def single {α : Type} (x : Request (List Cells)) (read : Cells → Except Refusal α) : Request α := do
  ExceptT.mk (pure (part (← x) 0 >>= read))

/-- Stores a message under the next sequence number of its destination. Until the transaction ends
no other one can give out a number there. -/
def append (h : Handle) (r : Row) : Request Int := do
  let _ ← h.send .lockDestination [.text r.destination]
  let sequence ← single (h.send .nextSequence [.text r.destination]) readNumber
  let _ ← h.send .insertMessage
    [.text r.destination, .int sequence, .text r.id, .int r.priority, .bytes r.data]
  return sequence

/-- Work whose refusal is raised. -/
def raising {α : Type} (x : Request α) : Work (Except Failure α) :=
  (·.mapError Refusal.failure) <$> x.run

/-- Work whose refusal is reported. -/
def reporting (x : Request Unit) : Work (Except Failure Status) := do
  match ← x.run with
  | .ok () => return .ok .success
  | .error e => return .ok e.status

/-- Work that reads messages. A refusal is reported unless the client was misused. -/
def scanning (x : Request (List Cells)) : Work Scan := do
  let outcome : Except Refusal Unit → Except Failure Status
    | .ok () => .ok .success
    | .error e => if e.cause = .misuse then .error e.failure else .ok e.status
  match ← x.run with
  | .error e => return ⟨[], outcome (.error e)⟩
  | .ok cells => let (rows, e) := readMessages cells; return ⟨rows, outcome e⟩

def perform (h : Handle) : (c : Call) → Work c.Reply
  | .append r => do
    match ← (h.append r).run with
    | .ok n => return .ok ⟨.success, n⟩
    | .error e => return .ok ⟨e.status, r.sequence⟩
  | .resolve d id => raising (first (h.ask .resolveSequence [.text d, .text id]) readMark)
  | .persist d k w => reporting do
    let _ ← h.ask .persistWatermark (keyOf d k ++ [.int w.sequence, .int w.priority])
  | .load d k => raising do
    return (← first (h.ask .loadWatermark (keyOf d k)) readMark).getD .start
  | .scanAfter d k above limit =>
    if limit = 0 then pure {}
    else scanning (h.ask .scanAfter (keyOf d k ++ [.int above.sequence, .int (limitWord limit)]))
  | .scanAll d k => scanning (h.ask .scanAll (keyOf d k))
  | .count d k => raising (single (h.ask .countUndelivered (keyOf d k)) readNumber)
  | .put record retroactive => reporting do
    let _ ← h.send .upsertSubscription
      (keyOf record.destination record.key ++ [.text record.selector, .flag retroactive])
  | .get d k => raising (first (h.ask .getSubscription (keyOf d k)) readSubscription)
  | .delete d k => reporting do
    let _ ← h.send .deleteSubscription (keyOf d k)
  | .list d => raising do
    let rows ← h.send .listSubscriptions [.text d]
    ExceptT.mk (pure (rows.mapM readSubscription))

/-- Commits. A refused commit leaves the transaction unfinished. -/
def commit (h : Handle) : Work (Except Failure Unit × Handle) := do
  Link.tell (.committed h.connection)
  match ← Link.nextCommit.run with
  | .ok () => return (.ok (), { h with committed := true, finished := true })
  | .error e => return (.error e.failure, h)

/-- Rolls back, unless the transaction is finished. -/
def rollback (h : Handle) : Work Handle := do
  if h.finished then return h
  Link.tell (.aborted h.connection)
  return { h with finished := true }

/-- Gives a transaction up: it is rolled back unless it is finished, and its connection is released. -/
def close (h : Handle) : Work Unit := do
  let _ ← h.rollback
  Link.release h.connection

end Handle
end DurableTopic.Repository.Server

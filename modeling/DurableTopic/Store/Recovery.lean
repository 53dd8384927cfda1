import DurableTopic.Store.Observe
import DurableTopic.Wire.Codec
/-! Redelivery to durable subscribers. A pass holds the subscriber's cursor for its whole length,
reads rows in one transaction, and offers them to the listener after that transaction is closed.
The cursor moves with every message that the listener accepts. -/

namespace DurableTopic.Store

/-- What a pass offers: whole messages, or only their identities. -/
inductive Mode where
  | messages | reference
  deriving Repr, DecidableEq, Inhabited

def deliver (mode : Mode) (r : Row) : Op Bool :=
  match mode with
  | .reference => do Op.offer (.reference (← Op.ofExcept (Wire.reference r.id r.sequence)))
  | .messages => do Op.offer (.message ((← Op.ofExcept (Wire.decode r.data)).stamped r.sequence))

/-- How far a pass has come: the position of the last accepted message, how many were accepted, and
why the pass stopped, if by a failure. -/
structure Progress where
  mark : Watermark
  delivered : Nat := 0
  failure : Option Failure := none
  deriving Repr, DecidableEq

/-- Offers rows until the listener has no capacity or rejects one. A row at or below the cursor was
delivered before. -/
def offerRows (mode : Mode) : Progress → List Row → Op Progress
  | p, [] => pure p
  | p, r :: rows =>
    if !r.mark.isAhead p.mark then offerRows mode p rows
    else do
      match ← Op.attempt (do if ← Op.hasCapacity then deliver mode r else pure false) with
      | .error f => pure { p with failure := some f }
      | .ok false => pure p
      | .ok true => offerRows mode { p with mark := r.mark, delivered := p.delivered + 1 } rows

/-- Reads the rows of a pass. Those that are read before a failure count. -/
def readRows (destination : String) (k : SubscriberKey) (above : Watermark) (limit : Nat) :
    Op (List Row × Except Failure Unit) := do
  match ← Op.attempt Op.begin with
  | .error f => pure ([], .error f)
  | .ok () =>
    let scan ← Op.scanAfter destination k above limit
    let r ← Op.attempt do
      require (← Op.ofExcept scan.outcome) ("scan after " ++ toString above.sequence)
      Op.commit
    Op.ask .close
    pure (scan.rows, r)

/-- The position from which a pass starts: the cursor, or the persisted position, which then becomes
the cursor. -/
def startOf (destination : String) (k : SubscriberKey) (lease : Lease) : Op Watermark :=
  match lease.cursor with
  | some w => pure w
  | none => do
    let w ← inContext ("Failed to load last ack for: " ++ k.display) <| inTransaction <|
      Op.load destination k
    Op.ask (.keep lease.slot w)
    pure w

/-- Keeps how far a pass came and counts what was accepted, unless the pass was stopped by an object
that is no exception. -/
def settle (destination : String) (slot : Nat) (p : Progress) : Op Unit :=
  if p.failure.all Failure.isException then do
    Op.ask (.keep slot p.mark)
    Op.ask (.countRecovered destination p.delivered)
  else pure ()

/-- Offers the rows of a pass and settles how far it came. A failure to decode or of the listener ends
the pass behind that. -/
def offerAndKeep (destination : String) (mode : Mode) (span : Telemetry.Span) (slot : Nat)
    (above : Watermark) (rows : List Row) : Op Nat := do
  let p ← offerRows mode { mark := above } rows
  settle destination slot p
  match p.failure with
  | some f => throw f
  | none =>
    Op.ask (.setAttribute span "delivered" p.delivered)
    pure p.delivered

/-- A pass under its lease. A failure to read rows is logged and counted, and the rows read before it
are still offered. -/
def pass (destination : String) (k : SubscriberKey) (limit : Nat) (mode : Mode)
    (span : Telemetry.Span) (lease : Lease) : Op Nat := do
  let above ← startOf destination k lease
  Op.log .trace "recover next messages"
    [.subscriber k, .int "last" above.sequence, .int "priority" above.priority]
  let (rows, read) ← readRows destination k above limit
  if let .error f := read then
    Op.ask (.noteFailure span f.message)
    Op.log .error "recovery scan failed" [.destination destination, .subscriber k,
      .int "last" above.sequence, .int "rows_read" rows.length, .text "error" f.message]
    Op.ask (.countScanFailure destination)
  offerAndKeep destination mode span lease.slot above rows

/-- Offers the next messages above the cursor of a subscriber, at most `limit` of them, and gives the
number of those that the listener accepted. -/
def recoverNext (destination : String) (k : SubscriberKey) (limit : Nat) (mode : Mode) : Op Nat := do
  validate k
  let span ← Op.ask (.startSpan "recover_next_messages" destination (some k))
  let lease ← Op.ask (.acquire k)
  let r ← Op.attempt (pass destination k limit mode span lease)
  Op.ask (.release lease.slot)
  Op.ask (.endSpan span)
  Op.ofExcept r

/-- Offers rows until the listener rejects one, and gives the number of those that it accepted. -/
def offerAll (mode : Mode) : Nat → List Row → Op Nat
  | n, [] => pure n
  | n, r :: rows => do if ← deliver mode r then offerAll mode (n + 1) rows else pure n

def readAll (destination : String) (k : SubscriberKey) (context : String) : Op (List Row) := do
  let scan ← Op.scanAll destination k
  require (← Op.ofExcept scan.outcome) context
  pure scan.rows

/-- Offers all messages above the persisted position of a subscriber. The cursor plays no part. -/
def recoverAll (destination : String) (k : SubscriberKey) (mode : Mode) : Op Nat :=
  observed "recover_all_messages" destination (some k) do
    validate k
    let context := "Failed to recover subscription: " ++ k.client
    let rows ← inContext context <| inTransaction <| readAll destination k context
    let n ← offerAll mode 0 rows
    Op.ask (.countRecovered destination n)
    pure n

/-- Forgets the cursor of a subscriber, so that its next pass starts from the persisted position. -/
def resetBatching (k : SubscriberKey) : Op Unit := do
  Op.ask (.reset k)
  Op.log .trace "cursor reset" [.subscriber k]

def cachedWatermark (k : SubscriberKey) : Op (Option Watermark) := Op.ask (.peek k)

end DurableTopic.Store

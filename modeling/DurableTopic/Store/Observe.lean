import DurableTopic.Store.Operation
/-! What all store operations share: they run in one transaction, their failures say what was
attempted, and each is seen by the telemetry and, if it fails, by the log. -/

namespace DurableTopic.Store

variable {α : Type}

/-- Runs a body in a transaction of its own and commits. The transaction is closed on every path. -/
def inTransaction (body : Op α) : Op α := do
  Op.begin
  let r ← Op.attempt (do let a ← body; Op.commit; pure a)
  Op.ask .close
  Op.ofExcept r

/-- Names what was attempted in every failure that is not the store's own. -/
def inContext (context : String) (body : Op α) : Op α :=
  ExceptT.mk (body.run >>= fun r => pure (r.mapError (Failure.inContext context)))

def require (s : Status) (context : String) : Op Unit := Op.ofExcept (s.require context)

/-- Notes, logs and counts that an operation failed. What is no exception goes unreported. -/
def report (operation destination : String) (key : Option SubscriberKey) (span : Telemetry.Span)
    (f : Failure) : Op Unit :=
  if f.isException then do
    Op.ask (.noteFailure span f.message)
    Op.log .error "store operation failed" [.text "op" operation, .destination destination,
      .text "subscriber" (key.elim "" SubscriberKey.display), .text "error" f.message]
    Op.ask (.countOperation operation destination false)
  else pure ()

/-- Runs an operation inside a span, and counts how it ends. A failure is reported and passed
on. -/
def observed (operation destination : String) (key : Option SubscriberKey) (body : Op α) :
    Op α := do
  let span ← Op.ask (.startSpan operation destination key)
  match ← Op.attempt body with
  | .ok a =>
    Op.ask (.countOperation operation destination true)
    Op.ask (.endSpan span)
    pure a
  | .error f =>
    report operation destination key span f
    Op.ask (.endSpan span)
    throw f

def validate (k : SubscriberKey) : Op Unit :=
  if k.client.isEmpty then throw (.invalidArgument "client id must not be empty") else pure ()

end DurableTopic.Store

import DurableTopic.Message
import DurableTopic.Log.Logger
import DurableTopic.Repository.Call
import DurableTopic.Telemetry.Recorder
/-! What a store operation asks of its surroundings, one thing at a time: of the repository, of the
cache of cursors, of the log and the telemetry, and of the listener that it serves. -/

namespace DurableTopic.Store

/-- What a listener is offered: a message, or only its identity. -/
inductive Offer where
  | message (m : Message)
  | reference (id : MessageId)
  deriving Repr, DecidableEq

/-- The exclusive right to a subscriber's cursor, and where the cursor stood. -/
structure Lease where
  slot : Nat
  cursor : Option Watermark
  deriving Repr, DecidableEq

inductive Effect where
  | begin
  | call (c : Repository.Call)
  | commit
  /-- Give the transaction up; what it did not commit is lost. -/
  | close
  | acquire (key : SubscriberKey)
  | keep (slot : Nat) (mark : Watermark)
  | release (slot : Nat)
  | reset (key : SubscriberKey)
  | evict (key : SubscriberKey)
  | peek (key : SubscriberKey)
  | log (e : Log.Entry)
  | startSpan (operation destination : String) (key : Option SubscriberKey)
  | setAttribute (span : Telemetry.Span) (key : String) (value : Int)
  | noteFailure (span : Telemetry.Span) (description : String)
  | endSpan (span : Telemetry.Span)
  | countOperation (operation destination : String) (success : Bool)
  | countRecovered (destination : String) (count : Nat)
  | countScanFailure (destination : String)
  | hasCapacity
  | offer (o : Offer)
  deriving Repr, DecidableEq

abbrev Effect.Reply : Effect → Type
  | .begin | .commit => Except Failure Unit
  | .call c => c.Reply
  | .acquire _ => Lease
  | .peek _ => Option Watermark
  | .startSpan .. => Telemetry.Span
  | .hasCapacity | .offer _ => Except Failure Bool
  | .close | .keep .. | .release _ | .reset _ | .evict _ | .log _ | .setAttribute .. | .noteFailure ..
  | .endSpan _ | .countOperation .. | .countRecovered .. | .countScanFailure _ => Unit

end DurableTopic.Store

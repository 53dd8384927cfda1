import DurableTopic.Store.Observe
/-! Acknowledging a message. -/

namespace DurableTopic.Store

/-- Why a message is acknowledged: it was consumed, or the subscriber's selector never matched it. -/
inductive AckKind where
  | standard | unmatched
  deriving Repr, DecidableEq, Inhabited

/-- Moves the persisted position of a subscriber to a message. An acknowledgement of a message that
never matched is ignored: a later one moves the position past it. -/
def acknowledge (destination : String) (k : SubscriberKey) (id : String) : AckKind → Op Unit
  | .unmatched =>
    Op.log .trace "ignoring unmatched selector ack" [.subscriber k, .text "message_id" id]
  | .standard =>
    observed "acknowledge" destination (some k) do
      validate k
      let context := "Failed to store acknowledgment for: " ++ k.client ++ " on message " ++ id
      let mark ← inContext context <| inTransaction do
        match ← Op.resolve destination id with
        | none => throw (.store .notFound (context ++ ": unknown message id"))
        | some w =>
          let s ← Op.persist destination k w
          require s context
          pure w
      Op.log .trace "ack" [.subscriber k, .int "seq" mark.sequence, .int "priority" mark.priority]

end DurableTopic.Store

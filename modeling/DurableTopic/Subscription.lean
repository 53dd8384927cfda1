import DurableTopic.SubscriberKey
import DurableTopic.Watermark
/-! Durable subscriptions: who subscribes to what, and how far its acknowledgements reach. -/

namespace DurableTopic

/-- The durable record of one subscriber on one destination. -/
structure Subscription where
  destination : String
  key : SubscriberKey
  selector : String := ""
  retroactive : Bool := false
  acked : Watermark := .start
  deriving Repr, DecidableEq, Inhabited

namespace Subscription

/-- The order in which subscriptions are listed: by their keys. -/
def listed (xs : List Subscription) : List Subscription :=
  xs.mergeSort fun a b => !b.key.before a.key

end Subscription
end DurableTopic

import DurableTopic.Store.Observe
/-! The durable subscriptions of a destination. -/

namespace DurableTopic.Store

/-- Registers a subscriber, who starts behind the newest message unless it is retroactive; one who
is registered keeps its position. Of the description only the key, the selector and the
destination count. -/
def subscribe (destination : String) (info : Subscription) (retroactive : Bool) : Op Unit :=
  observed "add_subscription" destination (some info.key) do
    validate info.key
    if !info.destination.isEmpty && info.destination ≠ destination then
      throw (.invalidArgument ("subscription destination " ++ info.destination ++
        " does not match store destination " ++ destination))
    let context := "Failed to lookup subscription for info: " ++ info.key.client
    inContext context <| inTransaction do
      let s ← Op.register ⟨destination, info.key, info.selector, retroactive, .start⟩ retroactive
      require s context
    Op.log .debug "subscription added"
      [.destination destination, .subscriber info.key, .bool "retroactive" retroactive]

def lookup (destination : String) (k : SubscriberKey) : Op (Option Subscription) :=
  observed "lookup_subscription" destination (some k) do
    validate k
    inContext ("Failed to lookup subscription for: " ++ k.client) <| inTransaction <|
      Op.record destination k

/-- The records of all subscribers, in no particular order. -/
def subscriptions (destination : String) : Op (List Subscription) :=
  observed "get_all_subscriptions" destination none do
    inContext "Failed to lookup subscriptions" <| inTransaction <| Op.records destination

/-- Forgets a subscriber. Its cursor is evicted whether or not that succeeds. -/
def unsubscribe (destination : String) (k : SubscriberKey) : Op Unit :=
  observed "delete_subscription" destination (some k) do
    validate k
    let context := "Failed to remove subscription for: " ++ k.client
    let r ← Op.attempt <| inContext context <| inTransaction do
      let s ← Op.forget destination k
      require s context
    Op.ask (.evict k)
    Op.ofExcept r
    Op.log .debug "subscription deleted" [.destination destination, .subscriber k]

def messageCount (destination : String) (k : SubscriberKey) : Op Int :=
  observed "get_message_count" destination (some k) do
    validate k
    let n ← inContext ("Failed to get Message Count: " ++ k.client) <| inTransaction <|
      Op.undelivered destination k
    Op.log .trace "message count" [.subscriber k, .int "count" n]
    pure n

end DurableTopic.Store

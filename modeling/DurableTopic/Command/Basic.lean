import DurableTopic.SubscriberKey
/-! The commands of the administration program, and how they are read from its arguments. -/

namespace DurableTopic

/-- A command. Numbers are read when the command is run. -/
inductive Command where
  | publish (id body : String) (priority : Option String)
  | subscribe (key : SubscriberKey) (retroactive : Bool)
  | unsubscribe (key : SubscriberKey)
  | subscriptions
  | acknowledge (key : SubscriberKey) (id : String)
  | count (key : SubscriberKey)
  | peek (key : SubscriberKey) (limit : Option String)
  deriving Repr, DecidableEq

namespace Command

/-- The subscriber named by a client and, behind it, an argument that may be missing. -/
def subscriber (client : String) (name : Option String) : SubscriberKey :=
  ⟨client, name.filter (· ≠ "-")⟩

/-- Reads a command. Arguments behind those that a command takes are ignored. -/
def read? : List String → Option Command
  | "publish" :: id :: body :: rest => some (publish id body rest.head?)
  | "subscribe" :: client :: rest =>
    some (subscribe (subscriber client rest.head?) (rest[1]? = some "retroactive"))
  | "unsubscribe" :: client :: rest => some (unsubscribe (subscriber client rest.head?))
  | "subscriptions" :: _ => some subscriptions
  | "ack" :: client :: name :: id :: _ => some (acknowledge (subscriber client name) id)
  | "count" :: client :: rest => some (count (subscriber client rest.head?))
  | "peek" :: client :: rest => some (peek (subscriber client rest.head?) rest[1]?)
  | _ => none

def usage : String :=
  "Usage:\n" ++
  "  topicstore-ctl --config <file> publish <message_id> <body> [priority]\n" ++
  "  topicstore-ctl --config <file> subscribe <client> [<sub>|-] [retroactive]\n" ++
  "  topicstore-ctl --config <file> unsubscribe <client> [<sub>|-]\n" ++
  "  topicstore-ctl --config <file> subscriptions\n" ++
  "  topicstore-ctl --config <file> ack <client> <sub>|- <message_id>\n" ++
  "  topicstore-ctl --config <file> count <client> [<sub>|-]\n" ++
  "  topicstore-ctl --config <file> peek <client> [<sub>|-] [n]\n" ++
  "\n" ++
  "'-' stands for a subscription without a name.\n"

end Command
end DurableTopic

/-! Durable subscribers are named by a client and, if they have one, a subscription name. -/

namespace DurableTopic

/-- The identity of a durable subscriber. An absent name differs from every name. -/
structure SubscriberKey where
  client : String
  name : Option String := none
  deriving Repr, DecidableEq, Inhabited

namespace SubscriberKey

/-- The word that stands for an absent name where a key is shown. -/
def unsetName : String := "NOT_SET"

/-- How a key is shown. Two different keys may look alike. -/
def display (k : SubscriberKey) : String := k.client ++ ":" ++ k.name.getD unsetName

def nameOrEmpty (k : SubscriberKey) : String := k.name.getD ""

/-- The order of names: an absent name comes first. -/
def nameBefore : Option String → Option String → Bool
  | none, some _ => true
  | some a, some b => a < b
  | _, none => false

/-- The order of keys: by client, then by name. -/
def before (a b : SubscriberKey) : Bool :=
  a.client < b.client || (a.client = b.client && nameBefore a.name b.name)

/-- The place of the first key of a list that equals `k`. -/
def firstIndex (keys : List SubscriberKey) (k : SubscriberKey) : Nat := keys.idxOf k

def distinct (keys : List SubscriberKey) : Nat := keys.eraseDups.length

end SubscriberKey
end DurableTopic

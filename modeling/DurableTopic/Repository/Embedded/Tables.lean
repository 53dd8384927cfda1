import DurableTopic.Repository.Call
/-! The tables of an embedded database and what its statements do to them. Text reaches a statement
only up to its first NUL. A statement that fails changes nothing. -/

namespace DurableTopic.Repository.Embedded

/-- A row of the table of subscriptions. An absent name is stored as the empty text, and a column
of its own says whether there is a name. -/
structure SubscriptionRow where
  destination : String
  client : String
  name : String
  nameSet : Bool
  selector : String
  retroactive : Bool
  acked : Watermark
  deriving Repr, DecidableEq, Inhabited

/-- What may happen to a row. -/
inductive Verb where
  | insert | update | delete
  deriving Repr, DecidableEq, Inhabited

def Verb.name : Verb → String
  | insert => "INSERT"
  | update => "UPDATE"
  | delete => "DELETE"

/-- What may happen to a row, by its name. -/
def Verb.ofName? (s : String) : Option Verb := [insert, update, delete].find? (·.name = s)

inductive Table where
  | messages | subscriptions
  deriving Repr, DecidableEq, Inhabited

namespace Table

def name : Table → String
  | messages => "topic_messages"
  | subscriptions => "topic_subscriptions"

/-- The table with this name, in any case. -/
def ofName? (s : String) : Option Table := [messages, subscriptions].find? (·.name = s.toLower)

end Table

structure Event where
  verb : Verb
  table : Table
  deriving Repr, DecidableEq, Inhabited

/-- A trigger refuses every statement of its event with its text, if it has one. -/
structure Trigger where
  name : String
  event : Event
  text : Option String
  deriving Repr, DecidableEq, Inhabited

/-- The tables, and their triggers, of which the newest comes first. A table that was dropped is
absent. -/
structure Tables where
  messages : Option (List Row) := some []
  subscriptions : Option (List SubscriptionRow) := some []
  triggers : List Trigger := []
  deriving Repr, DecidableEq, Inhabited

/-- The columns that identify a subscriber, as a statement carries them. -/
structure KeyColumns where
  destination : String
  client : String
  name : String
  nameSet : Bool
  deriving Repr, DecidableEq, Inhabited

def KeyColumns.of (destination : String) (k : SubscriberKey) : KeyColumns :=
  ⟨Text.beforeNul destination, Text.beforeNul k.client, Text.beforeNul k.nameOrEmpty, k.name.isSome⟩

namespace SubscriptionRow

def key (r : SubscriptionRow) : KeyColumns := ⟨r.destination, r.client, r.name, r.nameSet⟩

def record (r : SubscriptionRow) : Subscription where
  destination := r.destination
  key := ⟨r.client, if r.nameSet then some r.name else none⟩
  selector := r.selector
  retroactive := r.retroactive
  acked := r.acked

end SubscriptionRow

def noSuchTable (t : Table) : String := "no such table: " ++ t.name

def internal (text : String) : Status := ⟨.internalError, text⟩

namespace Tables

def readMessages (t : Tables) : Except String (List Row) :=
  match t.messages with
  | some rows => .ok rows
  | none => .error (noSuchTable .messages)

def readSubscriptions (t : Tables) : Except String (List SubscriptionRow) :=
  match t.subscriptions with
  | some rows => .ok rows
  | none => .error (noSuchTable .subscriptions)

/-- Creates the tables that do not exist. -/
def migrated (t : Tables) : Tables :=
  { t with
    messages := some (t.messages.getD [])
    subscriptions := some (t.subscriptions.getD []) }

/-- The trigger with this name, in any case. -/
def trigger? (t : Tables) (name : String) : Option Trigger :=
  t.triggers.find? (·.name.toLower = name.toLower)

/-- The refusal of an event, if a trigger watches it. -/
def refusal? (t : Tables) (e : Event) : Option Status :=
  ((t.triggers.filter (·.event = e)).findSome? (·.text)).map (⟨.constraintViolation, ·⟩)

/-- The highest sequence number of a destination. -/
def greatest (rows : List Row) (destination : String) : Option Int :=
  ((rows.filter (·.destination = destination)).map (·.sequence)).max?

def resolve (t : Tables) (destination id : String) : Except String (Option Watermark) := do
  let rows ← t.readMessages
  let d := Text.beforeNul destination
  return (rows.find? fun r => r.destination = d ∧ r.id = Text.beforeNul id).map (·.mark)

def subscriber (t : Tables) (k : KeyColumns) : Except String (Option SubscriptionRow) := do
  return (← t.readSubscriptions).find? (·.key = k)

def subscribers (t : Tables) (destination : String) : Except String (List SubscriptionRow) := do
  return (← t.readSubscriptions).filter (·.destination = Text.beforeNul destination)

/-- The messages of a subscriber's destination above a position that may depend on its row, in
ascending order. -/
def joined (t : Tables) (k : KeyColumns) (above : SubscriptionRow → Int) :
    Except String (List Row) := do
  let rows ← t.readMessages
  let subscribers ← t.readSubscriptions
  return match subscribers.find? (·.key = k) with
    | some s =>
      (rows.filter fun r => r.destination = s.destination ∧ above s < r.sequence).mergeSort
        fun a b => a.sequence ≤ b.sequence
    | none => []

def insertMessage (rows : List Row) (r : Row) (t : Tables) : Except Status (Int × Tables) :=
  let d := Text.beforeNul r.destination
  let id := Text.beforeNul r.id
  let next := (greatest rows d).getD 0 + 1
  match t.refusal? ⟨.insert, .messages⟩ with
  | some s => .error s
  | none =>
    if rows.any fun o => o.destination = d ∧ o.id = id then
      .error ⟨.constraintViolation,
        "UNIQUE constraint failed: topic_messages.destination, topic_messages.message_id"⟩
    else
      .ok (next, { t with
        messages := some (rows ++ [{ r with destination := d, id := id, sequence := next }]) })

def updateAcked (rows : List SubscriptionRow) (k : KeyColumns) (w : Watermark) (t : Tables) :
    Except Status (Unit × Tables) :=
  let hit (r : SubscriptionRow) : Bool := r.key = k ∧ r.acked.sequence < w.sequence
  match rows.any hit, t.refusal? ⟨.update, .subscriptions⟩ with
  | true, some s => .error s
  | _, _ =>
    .ok ((), { t with
      subscriptions := some (rows.map fun r => if hit r then { r with acked := w } else r) })

/-- Inserts a subscriber behind the newest message of its destination, or at the start; or changes
the selector and the flag of one that is there. It counts as an insertion in any case, and then
perhaps as a change too. -/
def upsert (rows : List SubscriptionRow) (messages : List Row) (record : Subscription)
    (retroactive : Bool) (t : Tables) : Except Status (Unit × Tables) :=
  let k := KeyColumns.of record.destination record.key
  let selector := Text.beforeNul record.selector
  match t.refusal? ⟨.insert, .subscriptions⟩, rows.any (·.key = k),
    t.refusal? ⟨.update, .subscriptions⟩ with
  | some s, _, _ | none, true, some s => .error s
  | none, true, none =>
    .ok ((), { t with
      subscriptions := some (rows.map fun r =>
        if r.key = k then { r with selector, retroactive } else r) })
  | none, false, _ =>
    let head := if retroactive then -1 else (greatest messages k.destination).getD (-1)
    .ok ((), { t with
      subscriptions := some (rows ++
        [⟨k.destination, k.client, k.name, k.nameSet, selector, retroactive, ⟨head, 0⟩⟩]) })

def deleteSubscriber (rows : List SubscriptionRow) (k : KeyColumns) (t : Tables) :
    Except Status (Unit × Tables) :=
  match rows.any (·.key = k), t.refusal? ⟨.delete, .subscriptions⟩ with
  | true, some s => .error s
  | _, _ => .ok ((), { t with subscriptions := some (rows.filter (·.key ≠ k)) })

def drop (t : Tables) (table : Table) : Tables :=
  let kept := { t with triggers := t.triggers.filter (·.event.table ≠ table) }
  match table with
  | .messages => { kept with messages := none }
  | .subscriptions => { kept with subscriptions := none }

def has (t : Tables) : Table → Bool
  | .messages => t.messages.isSome
  | .subscriptions => t.subscriptions.isSome

end Tables
end DurableTopic.Repository.Embedded

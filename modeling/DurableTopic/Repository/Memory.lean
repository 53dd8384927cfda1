import DurableTopic.Assoc
import DurableTopic.Log.Logger
import DurableTopic.Repository.Call
/-! A repository that lives in memory. A transaction reads what is committed until it first writes;
from then on it works on a copy, which a commit puts in place and a rollback drops. -/

namespace DurableTopic.Repository.Memory

/-- One destination: its messages in ascending order, an index of them by id, and its
subscribers. -/
structure Topic where
  rows : List Row := []
  byId : Assoc String Watermark := ∅
  subscriptions : Assoc SubscriberKey Subscription := ∅
  nextSequence : Int := 1
  deriving Repr, DecidableEq, Inhabited

/-- The rows above a sequence number, found by halving a list that is in ascending order. -/
def rowsAbove (sequence : Int) (rows : List Row) : List Row :=
  match h : rows.drop (rows.length / 2) with
  | [] => []
  | r :: rest =>
    have : rows.length - rows.length / 2 = rest.length + 1 := by
      simpa using congrArg List.length h
    if sequence < r.sequence then rowsAbove sequence (rows.take (rows.length / 2)) ++ r :: rest
    else rowsAbove sequence rest
termination_by rows.length
decreasing_by
  · simp only [List.length_take]; omega
  · omega

namespace Topic

/-- Stores a message. A message whose id is stored already changes nothing; messages without an id
are not indexed. -/
def append (t : Topic) (r : Row) : Appended × Topic :=
  if !r.id.isEmpty && (t.byId.find? r.id).isSome then
    (⟨⟨.alreadyExists, "duplicate message id " ++ r.id⟩, r.sequence⟩, t)
  else
    let stored := { r with sequence := t.nextSequence }
    (⟨.success, stored.sequence⟩,
      { t with
        rows := t.rows ++ [stored]
        byId := if r.id.isEmpty then t.byId else t.byId.put r.id stored.mark
        nextSequence := t.nextSequence + 1 })

def resolve (t : Topic) (id : String) : Option Watermark := t.byId.find? id

def get (t : Topic) (k : SubscriberKey) : Option Subscription := t.subscriptions.find? k

/-- Whether a position would move the persisted position of a subscriber. -/
def moves (t : Topic) (k : SubscriberKey) (w : Watermark) : Bool :=
  (t.get k).any fun s => w.isAhead s.acked

def setAcked (t : Topic) (k : SubscriberKey) (w : Watermark) : Topic :=
  match t.get k with
  | some s => { t with subscriptions := t.subscriptions.put k { s with acked := w } }
  | none => t

/-- Where a new subscriber starts: before all messages, or after the newest. -/
def startFor (t : Topic) (retroactive : Bool) : Watermark :=
  match retroactive, t.rows.getLast? with
  | false, some r => ⟨r.sequence, 0⟩
  | _, _ => .start

/-- Registers a subscriber. A registered one keeps its position. -/
def put (t : Topic) (record : Subscription) (retroactive : Bool) : Topic :=
  let entry : Subscription := match t.get record.key with
    | some s => { s with selector := record.selector, retroactive }
    | none => { record with retroactive, acked := t.startFor retroactive }
  { t with subscriptions := t.subscriptions.put record.key entry }

def delete (t : Topic) (k : SubscriberKey) : Topic :=
  { t with subscriptions := t.subscriptions.erase k }

/-- The messages that a registered subscriber has not acknowledged. -/
def undelivered (t : Topic) (k : SubscriberKey) : List Row :=
  match t.get k with
  | some s => t.rows.filter fun r => s.acked.sequence < r.sequence
  | none => []

/-- The messages above a position that a visitor is shown, if the subscriber is registered. -/
def visitAfter (t : Topic) (k : SubscriberKey) (above : Watermark) (limit : Nat) (v : Visitor) :
    List Row :=
  match t.get k with
  | some _ => v.shown limit (rowsAbove above.sequence t.rows)
  | none => []

/-- The first messages above a position, if the subscriber is registered. -/
def scanAfter (t : Topic) (k : SubscriberKey) (above : Watermark) (limit : Nat) : List Row :=
  t.visitAfter k above limit .always

end Topic

abbrev Topics := Assoc String Topic

/-- The topic of a destination; a destination of which nothing is known is empty. -/
def topicOf (ts : Topics) (destination : String) : Topic := (ts.find? destination).getD {}

/-- Where a transaction stands. -/
inductive Phase where
  | active | committed | rolledBack
  deriving Repr, DecidableEq, Inhabited

/-- A transaction and, once it has written, its copy of all destinations. -/
structure Transaction where
  working : Option Topics := none
  phase : Phase := .active
  deriving Repr, DecidableEq, Inhabited

/-- What is said of a write or a commit on a finished transaction. -/
def alreadyFinished : Failure := .logic "memory transaction already finished"

namespace Transaction

def view (t : Transaction) (committed : Topics) : Topics := t.working.getD committed

/-- Writes into the copy of an active transaction. -/
def write {α : Type} (t : Transaction) (committed : Topics) (destination : String)
    (f : Topic → α × Topic) : Except Failure α × Transaction :=
  match t.phase with
  | .active =>
    let topics := t.view committed
    let (a, topic) := f (topicOf topics destination)
    (.ok a, { t with working := some (topics.put destination topic) })
  | _ => (.error alreadyFinished, t)

def perform (t : Transaction) (committed : Topics) : (c : Call) → c.Reply × Transaction
  | .append r => t.write committed r.destination (·.append r)
  | .resolve d id => (.ok ((topicOf (t.view committed) d).resolve id), t)
  | .persist d k w =>
    if (topicOf (t.view committed) d).moves k w then
      t.write committed d fun topic => (.success, topic.setAcked k w)
    else (.ok .success, t)
  | .load d k =>
    (.ok (((topicOf (t.view committed) d).get k).elim .start (·.acked)), t)
  | .scanAfter d k above limit =>
    ({ rows := (topicOf (t.view committed) d).scanAfter k above limit }, t)
  | .scanAll d k => ({ rows := (topicOf (t.view committed) d).undelivered k }, t)
  | .count d k => (.ok ((topicOf (t.view committed) d).undelivered k).length, t)
  | .put record retroactive =>
    t.write committed record.destination fun topic => (.success, topic.put record retroactive)
  | .get d k => (.ok ((topicOf (t.view committed) d).get k), t)
  | .delete d k =>
    if ((topicOf (t.view committed) d).get k).isSome then
      t.write committed d fun topic => (.success, topic.delete k)
    else (.ok .success, t)
  | .list d => (.ok (topicOf (t.view committed) d).subscriptions.values, t)

/-- Makes the copy of an active transaction the committed state. -/
def commit (t : Transaction) (committed : Topics) : Except Failure Unit × Topics × Transaction :=
  match t.phase with
  | .active => (.ok (), t.view committed, ⟨none, .committed⟩)
  | _ => (.error alreadyFinished, committed, t)

/-- Drops the copy of an active transaction. -/
def rollback (t : Transaction) : Transaction :=
  match t.phase with
  | .active => ⟨none, .rolledBack⟩
  | _ => t

end Transaction
end DurableTopic.Repository.Memory

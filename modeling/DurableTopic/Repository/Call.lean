import DurableTopic.Failure
import DurableTopic.Row
import DurableTopic.Subscription
/-! What a repository of topics can be asked inside a transaction, and what it answers. Every backend
answers the same calls; they differ in how a call fails. -/

namespace DurableTopic.Repository

/-- A call inside a transaction. -/
inductive Call where
  /-- Store a message under the next sequence number of its destination. -/
  | append (row : Row)
  | resolve (destination id : String)
  /-- Move the persisted position of a subscriber forward; it never moves back. -/
  | persist (destination : String) (key : SubscriberKey) (mark : Watermark)
  /-- The persisted position of a subscriber, or the start. -/
  | load (destination : String) (key : SubscriberKey)
  /-- At most `limit` messages above a position, if the subscriber is registered. -/
  | scanAfter (destination : String) (key : SubscriberKey) (above : Watermark) (limit : Nat)
  /-- All messages above the persisted position of a registered subscriber. -/
  | scanAll (destination : String) (key : SubscriberKey)
  /-- How many messages are above the persisted position of a registered subscriber. -/
  | count (destination : String) (key : SubscriberKey)
  /-- Register a subscriber, or change the selector and the flag of a registered one. -/
  | put (record : Subscription) (retroactive : Bool)
  | get (destination : String) (key : SubscriberKey)
  | delete (destination : String) (key : SubscriberKey)
  | list (destination : String)
  deriving Repr, DecidableEq

/-- A row limit as the signed 64-bit word that a statement carries. -/
def limitWord (limit : Nat) : Int := (Int64.ofNat limit).toInt

/-- What an append reports: whether it succeeded, and the sequence number that the message has
afterwards. -/
structure Appended where
  status : Status
  sequence : Int
  deriving Repr, DecidableEq

/-- What a scan reads: rows, one after the other, and how it ends behind the last. -/
structure Scan where
  rows : List Row := []
  outcome : Except Failure Status := .ok .success

namespace Scan

/-- What a visitor sees who refuses to go on once it has `stop` rows. It sees a row before it can
refuse, and a refusal ends the scan in success. -/
def upTo (s : Scan) (stop : Nat) : Scan :=
  if max stop 1 ≤ s.rows.length then ⟨s.rows.take (max stop 1), .ok .success⟩ else s

end Scan

/-- Who is shown rows, one after the other: it has something in mind, and makes of each row whether to
go on and what it has in mind then. -/
structure Visitor where
  State : Type
  state : State
  visit : State → Row → Bool × State

namespace Visitor

def accepts (v : Visitor) (r : Row) : Bool := (v.visit v.state r).1

/-- A visitor that was shown a row. -/
def next (v : Visitor) (r : Row) : Visitor := { v with state := (v.visit v.state r).2 }

/-- The rows that a visitor is shown: no more than so many, and none behind one that it refuses. -/
def shown (v : Visitor) : Nat → List Row → List Row
  | 0, _ | _, [] => []
  | n + 1, r :: rows => r :: if v.accepts r then (v.next r).shown n rows else []

/-- Refuses no row. -/
def always : Visitor := ⟨Unit, (), fun _ _ => (true, ())⟩

/-- Refuses to go on once it was shown `stop` rows, of which it may have seen some already. -/
def stopping (stop : Nat) (seen : Nat := 0) : Visitor :=
  ⟨Nat, seen, fun n _ => (decide (n + 1 < stop), n + 1)⟩

end Visitor

abbrev Call.Reply : Call → Type
  | .append _ => Except Failure Appended
  | .resolve .. => Except Failure (Option Watermark)
  | .persist .. | .put .. | .delete .. => Except Failure Status
  | .load .. => Except Failure Watermark
  | .scanAfter .. | .scanAll .. => Scan
  | .count .. => Except Failure Int
  | .get .. => Except Failure (Option Subscription)
  | .list _ => Except Failure (List Subscription)

/-- A call that fails. -/
def Call.failed (f : Failure) : (c : Call) → c.Reply
  | .append _ | .resolve .. | .persist .. | .put .. | .delete .. | .load .. | .count .. | .get ..
  | .list _ => .error f
  | .scanAfter .. | .scanAll .. => ⟨[], .error f⟩

/-- A call that reports a status, where a call can report one. An append that reports a refusal
leaves the sequence number of its message as it was. -/
def Call.reporting? (s : Status) : (c : Call) → Option c.Reply
  | .append r => some (.ok ⟨s, r.sequence⟩)
  | .persist .. | .put .. | .delete .. => some (.ok s)
  | .scanAfter .. | .scanAll .. => some ⟨[], .ok s⟩
  | .resolve .. | .load .. | .count .. | .get .. | .list _ => none

end DurableTopic.Repository

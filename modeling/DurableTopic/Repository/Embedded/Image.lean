import DurableTopic.Repository.Embedded.Volume
import DurableTopic.Wire.Codec
/-! How the tables of a database are written in a file: a signature, and then a field for each row. -/

namespace DurableTopic.Repository.Embedded.Image

open Wire

/-- What every file of a database starts with. -/
def signature : Bytes := Text.utf8 "durable topic database 1\n"

def rowFields (r : Row) : List Field :=
  bytesField 1 (Text.utf8 r.destination) ++ intField 2 r.sequence ++ bytesField 3 (Text.utf8 r.id) ++
    intField 4 r.priority ++ bytesField 5 r.data

def subscriptionFields (r : SubscriptionRow) : List Field :=
  bytesField 1 (Text.utf8 r.destination) ++ bytesField 2 (Text.utf8 r.client) ++
    bytesField 3 (Text.utf8 r.name) ++ intField 4 r.nameSet.toInt ++
    bytesField 5 (Text.utf8 r.selector) ++ intField 6 r.retroactive.toInt ++
    intField 7 r.acked.sequence ++ intField 8 r.acked.priority

def triggerFields (t : Trigger) : List Field :=
  bytesField 1 (Text.utf8 t.name) ++ bytesField 2 (Text.utf8 t.event.verb.name) ++
    bytesField 3 (Text.utf8 t.event.table.name) ++
    t.text.toList.map fun s => ⟨4, .bytes (Text.utf8 s)⟩

/-- The file of a database. A table that was dropped is empty in it. -/
def write (t : Tables) : Bytes :=
  signature ++ writeFields
    ((t.messages.getD []).map (fun r => ⟨1, .bytes (writeFields (rowFields r))⟩) ++
      (t.subscriptions.getD []).map (fun r => ⟨2, .bytes (writeFields (subscriptionFields r))⟩) ++
      t.triggers.map fun r => ⟨3, .bytes (writeFields (triggerFields r))⟩)

/-- A signed integer out of a 64-bit word. -/
def signed (n : Nat) : Int := (Int64.ofNat n).toInt

def rowStep (r : Row) : Field → Option Row
  | ⟨1, .bytes b⟩ => (Text.ofUtf8? b).map fun s => { r with destination := s }
  | ⟨2, .int n⟩ => some { r with sequence := signed n }
  | ⟨3, .bytes b⟩ => (Text.ofUtf8? b).map fun s => { r with id := s }
  | ⟨4, .int n⟩ => some { r with priority := signed n }
  | ⟨5, .bytes b⟩ => some { r with data := b }
  | _ => none

def subscriptionStep (r : SubscriptionRow) : Field → Option SubscriptionRow
  | ⟨1, .bytes b⟩ => (Text.ofUtf8? b).map fun s => { r with destination := s }
  | ⟨2, .bytes b⟩ => (Text.ofUtf8? b).map fun s => { r with client := s }
  | ⟨3, .bytes b⟩ => (Text.ofUtf8? b).map fun s => { r with name := s }
  | ⟨4, .int n⟩ => some { r with nameSet := n ≠ 0 }
  | ⟨5, .bytes b⟩ => (Text.ofUtf8? b).map fun s => { r with selector := s }
  | ⟨6, .int n⟩ => some { r with retroactive := n ≠ 0 }
  | ⟨7, .int n⟩ => some { r with acked := { r.acked with sequence := signed n } }
  | ⟨8, .int n⟩ => some { r with acked := { r.acked with priority := signed n } }
  | _ => none

def triggerStep (t : Trigger) : Field → Option Trigger
  | ⟨1, .bytes b⟩ => (Text.ofUtf8? b).map fun s => { t with name := s }
  | ⟨2, .bytes b⟩ =>
    ((Text.ofUtf8? b).bind Verb.ofName?).map fun verb => { t with event := { t.event with verb } }
  | ⟨3, .bytes b⟩ =>
    ((Text.ofUtf8? b).bind Table.ofName?).map fun table => { t with event := { t.event with table } }
  | ⟨4, .bytes b⟩ => (Text.ofUtf8? b).map fun s => { t with text := some s }
  | _ => none

def blankRow : Row := { destination := "" }

def blankSubscription : SubscriptionRow := ⟨"", "", "", false, "", false, ⟨0, 0⟩⟩

def tablesStep (t : Tables) : Field → Option Tables
  | ⟨1, .bytes b⟩ => do
    let r ← (← readFields [] b).foldlM rowStep blankRow
    return { t with messages := some (t.messages.getD [] ++ [r]) }
  | ⟨2, .bytes b⟩ => do
    let r ← (← readFields [] b).foldlM subscriptionStep blankSubscription
    return { t with subscriptions := some (t.subscriptions.getD [] ++ [r]) }
  | ⟨3, .bytes b⟩ => do
    let r ← (← readFields [] b).foldlM triggerStep default
    return { t with triggers := t.triggers ++ [r] }
  | _ => none

/-- What a file holds, by its bytes. An empty file is a new database. -/
def read (b : Bytes) : File :=
  if b.isEmpty then .database {}
  else if b.take signature.length ≠ signature then .other
  else
    match readFields [] (b.drop signature.length) >>= (·.foldlM tablesStep {}) with
    | some t => .database t
    | none => .other

end DurableTopic.Repository.Embedded.Image

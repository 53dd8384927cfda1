import DurableTopic.Message
import DurableTopic.Failure
import DurableTopic.Wire.Field
/-! The stored form of a message. A field with its default value is left out; a reader takes the
last value of a field that is written twice, merges parts of the identity, and skips what it does
not know. -/

namespace DurableTopic.Wire

/-- An integer as a 64-bit word. -/
def word (i : Int) : Nat := (i % 0x10000000000000000).toNat

/-- A field with an integer; none for zero. -/
def intField (number : Nat) (i : Int) : List Field :=
  if i = 0 then [] else [⟨number, .int (word i)⟩]

/-- A field with bytes; none for no bytes. -/
def bytesField (number : Nat) (b : Bytes) : List Field :=
  if b.isEmpty then [] else [⟨number, .bytes b⟩]

def writeFields (fs : List Field) : Bytes := fs.flatMap Field.write

def identityFields (i : MessageId) : List Field :=
  bytesField 1 (Text.utf8 i.value) ++ intField 2 i.sequence.toInt

/-- The fields of one property. Both are always written. -/
def propertyFields (key value : String) : List Field :=
  [⟨1, .bytes (Text.utf8 key)⟩, ⟨2, .bytes (Text.utf8 value)⟩]

def messageFields (m : Message) : List Field :=
  (m.id.toList.map fun i => ⟨1, .bytes (writeFields (identityFields i))⟩)
  ++ bytesField 2 (Text.utf8 m.destination)
  ++ intField 3 m.priority.toInt
  ++ bytesField 4 m.body
  ++ (m.properties.pairs.map fun (k, v) => ⟨5, .bytes (writeFields (propertyFields k v))⟩)
  ++ intField 6 m.timestampMs.toInt

def encode (m : Message) : Bytes := writeFields (messageFields m)

def identityStep (i : MessageId) : Field → Option MessageId
  | ⟨1, .bytes b⟩ => (Text.ofUtf8? b).map fun s => { i with value := s }
  | ⟨2, .int n⟩ => some { i with sequence := Int64.ofNat n }
  | _ => some i

def propertyStep (p : String × String) : Field → Option (String × String)
  | ⟨1, .bytes b⟩ => (Text.ofUtf8? b).map fun s => (s, p.2)
  | ⟨2, .bytes b⟩ => (Text.ofUtf8? b).map fun s => (p.1, s)
  | _ => some p

def messageStep (m : Message) : Field → Option Message
  | ⟨1, .bytes b⟩ => do
    let i ← (← readFields [] b).foldlM identityStep m.identity
    some { m with id := some i }
  | ⟨2, .bytes b⟩ => (Text.ofUtf8? b).map fun s => { m with destination := s }
  | ⟨3, .int n⟩ => some { m with priority := Int32.ofNat n }
  | ⟨4, .bytes b⟩ => some { m with body := b }
  | ⟨5, .bytes b⟩ => do
    let (k, v) ← (← readFields [] b).foldlM propertyStep ("", "")
    some { m with properties := m.properties.put k v }
  | ⟨6, .int n⟩ => some { m with timestampMs := Int64.ofNat n }
  | _ => some m

def decode? (bs : Bytes) : Option Message := do (← readFields [] bs).foldlM messageStep {}

/-- Reads the stored form of a message, or fails with the number of bytes that are none. -/
def decode (bs : Bytes) : Except Failure Message :=
  match decode? bs with
  | some m => .ok m
  | none => .error (.codec ("failed to decode topic message (" ++ toString bs.length ++ " bytes)"))

/-- The identity of a stored row, made without reading its message. -/
def reference (id : String) (sequence : Int) : Except Failure MessageId :=
  if id.isEmpty then
    .error (.codec ("stored message " ++ toString sequence ++ " has no message id"))
  else .ok ⟨id, Int64.ofInt sequence⟩

theorem decode_exception {bs : Bytes} {f : Failure} (h : decode bs = .error f) : f.isException := by
  unfold decode at h
  split at h <;> cases h
  rfl

theorem reference_exception {id : String} {sequence : Int} {f : Failure}
    (h : reference id sequence = .error f) : f.isException := by
  unfold reference at h
  split at h <;> cases h
  rfl

end DurableTopic.Wire

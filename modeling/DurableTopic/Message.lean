import DurableTopic.Text
import DurableTopic.Assoc
/-! Messages of a topic. -/

namespace DurableTopic

/-- The identity of a published message. Its sequence number is stamped when the message is read
back from the store. -/
structure MessageId where
  value : String := ""
  sequence : Int64 := 0
  deriving Repr, DecidableEq, Inhabited

structure Message where
  id : Option MessageId := none
  destination : String := ""
  priority : Int32 := 0
  body : Bytes := []
  properties : Assoc String String := ∅
  timestampMs : Int64 := 0
  deriving Repr, DecidableEq, Inhabited

namespace Message

/-- The identity of a message; a message without one has an empty identity. -/
def identity (m : Message) : MessageId := m.id.getD {}

/-- The message under the sequence number at which it is stored. -/
def stamped (m : Message) (sequence : Int) : Message :=
  { m with id := some { m.identity with sequence := Int64.ofInt sequence } }

end Message
end DurableTopic

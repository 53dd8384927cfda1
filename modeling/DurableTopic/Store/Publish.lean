import DurableTopic.Store.Observe
import DurableTopic.Wire.Codec
/-! Storing a message. -/

namespace DurableTopic.Store

def rowOf (destination : String) (m : Message) : Row where
  destination
  id := m.identity.value
  priority := m.priority.toInt
  data := Wire.encode m

def validateMessage (destination : String) (m : Message) : Op Unit := do
  if m.identity.value.isEmpty then
    throw (.invalidArgument "message id must not be empty")
  if !m.destination.isEmpty && m.destination ≠ destination then
    throw (.invalidArgument ("message destination " ++ m.destination ++
      " does not match store destination " ++ destination))

def publish (destination : String) (m : Message) : Op Int :=
  observed "add_message" destination none do
    validateMessage destination m
    let row := rowOf destination m
    let context := "Failed to add message " ++ row.id
    let sequence ← inContext context <| inTransaction do
      let a ← Op.append row
      require a.status context
      pure a.sequence
    Op.log .trace "message stored" [.text "message_id" row.id, .int "seq" sequence]
    pure sequence

end DurableTopic.Store

import DurableTopic.Text
import DurableTopic.Watermark
/-! Stored messages: the sequence number, identity and priority of a message beside its bytes. -/

namespace DurableTopic

/-- A stored message. Before it is stored its sequence number is the caller's. -/
structure Row where
  destination : String
  sequence : Int := 0
  id : String := ""
  priority : Int := 0
  data : Bytes := []
  deriving Repr, DecidableEq, Inhabited

def Row.mark (r : Row) : Watermark := ⟨r.sequence, r.priority⟩

end DurableTopic

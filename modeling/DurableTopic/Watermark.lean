/-! Positions in a topic: the sequence number and priority of the last message consumed. -/

namespace DurableTopic

/-- A position in a topic. Sequence numbers start at 1 and only ever grow by one, so positions do
not wrap. -/
structure Watermark where
  sequence : Int := -1
  priority : Int := 0
  deriving Repr, DecidableEq, Inhabited

namespace Watermark

/-- The position before all messages. -/
def start : Watermark := {}

/-- Positions are ordered by sequence alone: priority never moves a watermark. -/
def isAhead (candidate current : Watermark) : Bool := current.sequence < candidate.sequence

@[simp] theorem isAhead_iff {a b : Watermark} : a.isAhead b = true ↔ b.sequence < a.sequence := by
  simp [isAhead]

end Watermark
end DurableTopic

import DurableTopic.Proofs.Freshness
import DurableTopic.Proofs.Ownership
import Mathlib.Data.List.Count
import Mathlib.Data.List.Nodup
import Mathlib.Data.List.Perm.Subperm
/-! How often a thread that asks for a lease has to start over: it meets a retired slot once, and
every retired slot was given up by an eviction of its own. -/
namespace DurableTopic.Cursor

namespace Event

/-- The thread that takes a step of its call. -/
def mover : Event → Option Thread
  | .moved t _ _ | .answered t _ _ _ => some t
  | _ => none

/-- A thread that asks for a lease looks for the slot of the subscriber. -/
def looks (t : Thread) : Event → Bool
  | .moved u _ (.acquire _) => u = t
  | _ => false

/-- An eviction gives a slot up. -/
def evicted (k : SubscriberKey) : Event → Option (Thread × Nat)
  | .moved t _ (.evictSlot j i) => if j = k then some (t, i) else none
  | _ => none

end Event

/-- How often a thread looked for a slot. -/
def rounds (t : Thread) (tr : List Event) : Nat := tr.countP (·.looks t)

/-- How many steps a thread took. -/
def moves (t : Thread) (tr : List Event) : Nat := tr.countP fun e => e.mover = some t

namespace Threads

variable {s s' s₀ : Threads} {t : Thread} {k : SubscriberKey} {e : Event} {p : Call} {i : Nat}
  {tr tr₀ : List Event} {q : Pending} {o : Option Call}

end Threads
end DurableTopic.Cursor

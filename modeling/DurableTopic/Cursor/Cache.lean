import DurableTopic.Assoc
import DurableTopic.SubscriberKey
import DurableTopic.Watermark
/-! The cache of cursors: a slot per subscriber, which one thread at a time leases. An eviction
retires the slot and unmaps it; whoever waited for a retired slot starts over with a fresh one. A
thread that holds the lease does not wait for itself: what it asks of its own slot takes effect
when the lease is released.

A call is a sequence of steps. Each step looks at the map or at one slot, and threads may interleave
between steps. -/

namespace DurableTopic.Cursor

abbrev Thread := String

/-- A cursor and who may use it. -/
structure Slot where
  watermark : Option Watermark := none
  retired : Bool := false
  /-- The thread that holds the lease. -/
  holder : Option Thread := none
  pendingReset : Bool := false
  pendingEvict : Bool := false
  deriving Repr, DecidableEq, Inhabited

/-- All slots ever made, each named by its place, and the slot that each subscriber is mapped to. -/
structure Cache where
  slots : List Slot := []
  mapped : Assoc SubscriberKey Nat := ∅
  deriving Repr, DecidableEq, Inhabited

/-- Where a call stands: what its next step is about. -/
inductive Call where
  | acquire (key : SubscriberKey)
  | acquireSlot (key : SubscriberKey) (slot : Nat)
  | acquireUnmap (key : SubscriberKey) (slot : Nat)
  | reset (key : SubscriberKey)
  | resetSlot (slot : Nat)
  | evict (key : SubscriberKey)
  | evictSlot (key : SubscriberKey) (slot : Nat)
  | evictUnmap (key : SubscriberKey) (slot : Nat)
  | peek (key : SubscriberKey)
  | peekSlot (slot : Nat)
  deriving Repr, DecidableEq, Inhabited

/-- What a call returns. -/
inductive Answer where
  | leased (slot : Nat) (cursor : Option Watermark)
  | done
  | shown (cursor : Option Watermark)
  deriving Repr, DecidableEq, Inhabited

/-- What one step of a call does. -/
inductive Progress where
  | next (c : Cache) (call : Call)
  | finished (c : Cache) (a : Answer)
  /-- Another thread holds the slot, or the thread itself asks for a second lease. -/
  | blocked
  deriving Repr, DecidableEq

namespace Slot

/-- The slot after its lease is released: what was asked of it meanwhile takes effect. -/
def released (s : Slot) : Slot :=
  { watermark := if s.pendingEvict || s.pendingReset then none else s.watermark
    retired := s.retired || s.pendingEvict }

/-- What the holder of the lease sees. -/
def shownToHolder (s : Slot) : Option Watermark :=
  if s.pendingReset || s.pendingEvict then none else s.watermark

end Slot

namespace Cache

def slot (c : Cache) (i : Nat) : Slot := c.slots[i]?.getD {}

def setSlot (c : Cache) (i : Nat) (s : Slot) : Cache := { c with slots := c.slots.set i s }

def findOrMake (c : Cache) (k : SubscriberKey) : Nat × Cache :=
  match c.mapped.find? k with
  | some i => (i, c)
  | none => (c.slots.length,
    { slots := c.slots ++ [{}], mapped := c.mapped.put k c.slots.length })

/-- Unmaps a slot, unless its subscriber has a newer one. -/
def unmap (c : Cache) (k : SubscriberKey) (i : Nat) : Cache :=
  if c.mapped.find? k = some i then { c with mapped := c.mapped.erase k } else c

/-- The first step of a call that does nothing for a subscriber without a slot. -/
def look (c : Cache) (k : SubscriberKey) (absent : Answer) (present : Nat → Call) : Progress :=
  match c.mapped.find? k with
  | some i => .next c (present i)
  | none => .finished c absent

/-- A step on a slot, which waits until no other thread holds the lease. -/
def visit (c : Cache) (t : Thread) (i : Nat) (own free : Slot → Progress) : Progress :=
  match (c.slot i).holder with
  | none => free (c.slot i)
  | some h => if h = t then own (c.slot i) else .blocked

/-- One step of a call by a thread. -/
def step (c : Cache) (t : Thread) : Call → Progress
  | .acquire k => let (i, c) := c.findOrMake k; .next c (.acquireSlot k i)
  | .acquireSlot k i =>
    c.visit t i (fun _ => .blocked) fun s =>
      if s.retired then .next c (.acquireUnmap k i)
      else .finished (c.setSlot i { s with holder := some t }) (.leased i s.watermark)
  | .acquireUnmap k i => .next (c.unmap k i) (.acquire k)
  | .reset k => c.look k .done .resetSlot
  | .resetSlot i =>
    c.visit t i (fun s => .finished (c.setSlot i { s with pendingReset := true }) .done)
      fun s => .finished (c.setSlot i { s with watermark := none }) .done
  | .evict k => c.look k .done (.evictSlot k)
  | .evictSlot k i =>
    c.visit t i (fun s => .next (c.setSlot i { s with pendingEvict := true }) (.evictUnmap k i))
      fun s => .next (c.setSlot i { s with watermark := none, retired := true }) (.evictUnmap k i)
  | .evictUnmap k i => .finished (c.unmap k i) .done
  | .peek k => c.look k (.shown none) .peekSlot
  | .peekSlot i =>
    c.visit t i (fun s => .finished c (.shown s.shownToHolder))
      fun s => .finished c (.shown s.watermark)

def keep (c : Cache) (i : Nat) (w : Watermark) : Cache :=
  c.setSlot i { c.slot i with watermark := some w }

def release (c : Cache) (i : Nat) : Cache := c.setSlot i (c.slot i).released

def size (c : Cache) : Nat := c.mapped.size

/-- Takes at most `n` steps of a call, and stops before a step that has to wait. -/
def advance (t : Thread) : Nat → Cache → Call → Progress
  | 0, c, call => .next c call
  | n + 1, c, call =>
    match c.step t call with
    | .next c call => advance t n c call
    | .finished c a => .finished c a
    | .blocked => .next c call

/-- The most steps that a call takes while no other thread moves. -/
def stepsAlone : Nat := 8

/-- A call that runs alone. There is no answer if it waits for a lease that nobody will release. -/
def call (c : Cache) (t : Thread) (request : Call) : Option (Answer × Cache) :=
  match advance t stepsAlone c request with
  | .finished c a => some (a, c)
  | _ => none

end Cache
end DurableTopic.Cursor

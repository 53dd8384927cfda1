import DurableTopic.Store.Host
/-! Listeners that follow a script: how many messages they take, which they reject, at which they
give up, and what they do with the store before they answer. -/

namespace DurableTopic.Store

def Offer.sequence : Offer → Int
  | .message m => m.identity.sequence.toInt
  | .reference id => id.sequence.toInt

/-- A script. What a listener does with the store gives notes of some type. -/
structure Script (δ : Type) where
  /-- How many messages are taken; absent if there is no limit. -/
  capacity : Option Nat := none
  rejected : List Int := []
  failing : List Int := []
  reaction : Int → Option (Session δ) := fun _ => none

/-- An offer as the listener remembers it. -/
structure Offered (δ : Type) where
  offer : Offer
  accepted : Bool
  did : Option δ := none

/-- What a listener remembers. -/
structure Journal (δ : Type) where
  checks : Nat := 0
  accepted : Nat := 0
  offers : List (Offered δ) := []

namespace Script

variable {δ : Type}

instance : Inhabited (Script δ) := ⟨{}⟩

abbrev Listening (δ : Type) := StateT (Journal δ) Session

/-- Counts the question, and has capacity until enough messages are accepted. -/
def hasCapacity (s : Script δ) : Listening δ (Except Failure Bool) := do
  modify fun j => { j with checks := j.checks + 1 }
  return .ok (s.capacity.all ((← get).accepted < ·))

/-- Reacts to an offer that is not rejected, remembers it, and answers. -/
def offer (s : Script δ) (o : Offer) : Listening δ (Except Failure Bool) := do
  let n := o.sequence
  let rejected := s.rejected.contains n
  let fails := s.failing.contains n
  let did ← if rejected then pure none else
    match s.reaction n with
    | none => pure none
    | some react => some <$> liftM react
  let accepted := !rejected && !fails
  modify fun j => { j with
    accepted := if accepted then j.accepted + 1 else j.accepted
    offers := j.offers ++ [⟨o, accepted, did⟩] }
  if fails then return .error (.listener (.exception ("listener failed at " ++ toString n)))
  return .ok accepted

def listener (s : Script δ) : Listener (Listening δ) := ⟨s.hasCapacity, s.offer⟩

def serve {α : Type} (s : Script δ) (x : Op α) (t : Cursor.Thread) :
    Session (Except Failure α × Journal δ) :=
  (x.serve s.listener t).run {}

end Script
end DurableTopic.Store

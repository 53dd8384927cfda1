import DurableTopic.Proofs.Acknowledgement
import DurableTopic.Proofs.Play
import DurableTopic.Proofs.Undelivered
/-! What is published is what is offered. A pass whose next row is due asks its listener for exactly
what that row is offered as, and the row is the message as it was published. -/
namespace DurableTopic.Store

open Cursor (Thread)
open Repository (Ledger)

/-- The stage that the answers to a call lead to. -/
def stageOf (p : List Exchange) : Stage := p.foldl Stage.next {}

namespace Request

/-- Whether a call hands over whole messages, or only their identities. -/
def mode? : Request → Option Mode
  | recoverNext _ _ mode | recoverAll _ mode => some mode
  | _ => none

/-- Whether it is the turn of the next row after an answer. A pass under a cursor asks whether there
is capacity before every row. A recovery of everything starts when its transaction is closed, and
goes on with every row that is accepted. -/
def turns : Request → Stage → Exchange → Bool
  | recoverNext .., _, ⟨.hasCapacity, .ok true⟩ => true
  | recoverAll .., s, ⟨.close, _⟩ => s.phase = .ended
  | recoverAll .., _, ⟨.offer _, .ok true⟩ => true
  | _, _, _ => false

/-- The row whose turn it is in a call. -/
def due (r : Request) (p : List Exchange) : Option Row :=
  if p.getLast?.any (r.turns (stageOf p.dropLast)) then (stageOf p).ahead.head? else none

/-- What a call is to offer next, if a row is due that can be read. -/
def offers (r : Request) (p : List Exchange) : Option Offer :=
  (r.due p).bind fun row => r.mode?.bind fun mode => (offerOf mode row).toOption

end Request

/-- The answers to a call that stored its message. -/
def storeHistory (d : String) (m : Message) (i : Int) (span : Telemetry.Span) (s : Status) :
    List Exchange :=
  [⟨.startSpan "add_message" d none, span⟩, ⟨.begin, .ok ()⟩,
    ⟨.call (.append (rowOf d m)), .ok ⟨s, i⟩⟩, ⟨.commit, .ok ()⟩]

/-- A call stored a message under a number. -/
def HasStored (d : String) (m : Message) (i : Int) (p : List Exchange) : Prop :=
  ∃ span s, s.isOk ∧ storeHistory d m i span s <+: p

/-- A call that publishes gives the number under which it stored its message. -/
def Request.Gives (d : String) : (r : Request) → List Exchange → Except Failure r.Result → Prop
  | publish m, p, a => ∀ i : Int, a = .ok i → HasStored d m i p
  | _, _, _ => True

section

variable {r : Request} {p : List Exchange} {x : Exchange} {s : Stage} {row : Row} {mode : Mode}

end

section

variable {α : Type} {d : String} {k : SubscriberKey} {limit : Nat} {mode : Mode} {row : Row}
  {rows : List Row} {p : List Exchange}

open Op

theorem avoids_startOf {K : Effect → Bool} {lease : Lease} (hK : ∀ e, e.isStored → K e = false) :
    (startOf d k lease).Avoids K := by
  unfold startOf
  split
  · exact fun _ => trivial
  · exact avoids_bind (avoids_transacted hK fun _ => ⟨hK _ rfl, fun _ => trivial⟩) fun _ _ =>
      ⟨hK _ rfl, fun _ => trivial⟩

theorem avoids_readRows {K : Effect → Bool} {w : Watermark} (hK : ∀ e, e.isStored → K e = false) :
    (readRows d k w limit).Avoids K := by
  refine avoids_bind (avoids_attempt fun _ => ⟨hK _ rfl, fun _ => trivial⟩) fun begun => ?_
  cases begun with
  | error f => exact fun _ => trivial
  | ok _ =>
    refine avoids_bind (avoids_ask (hK _ rfl)) fun scan => avoids_bind (avoids_attempt ?_) fun _ _ =>
      ⟨hK _ rfl, fun _ => trivial⟩
    exact avoids_bind avoids_ofExcept fun _ => avoids_bind avoids_ofExcept fun _ _ =>
      ⟨hK _ rfl, fun _ => trivial⟩

end

section

variable {t u : Thread} {s s' : System} {h h' : Host} {f : Frame} {n : Nat} {r : Request}
  {past : List Exchange} {e : Effect} {a : e.Reply}
  {next : e.Reply → Operation (Except Failure r.Result)} {below : List Frame}

end

/-- The row whose turn it is in a call in progress. -/
def Frame.due (f : Frame) : Option Row := f.request.due f.past

end DurableTopic.Store

import DurableTopic.Proofs.Commits
import DurableTopic.Proofs.Fidelity
import Mathlib.Algebra.GroupWithZero.Nat
/-! What a call tells its telemetry of the offers that were accepted. A pass counts them however it
ends, but for an object that is no exception. A recovery of everything counts them where it succeeds; of
one that fails nothing is counted. -/
namespace DurableTopic.Store

/-- Whether an offer was accepted. -/
def Exchange.accepts : Exchange → Bool
  | ⟨.offer _, .ok true⟩ => true
  | _ => false

/-- How many messages are counted as recovered. -/
def Effect.recovered : Effect → Nat
  | .countRecovered _ n => n
  | _ => 0

/-- Whether an operation is counted as failed. -/
def Effect.reportsFailure : Effect → Bool
  | .countOperation _ _ false => true
  | _ => false

/-- How many offers of a call were accepted, how many it counted as recovered, whether it was counted
as failed, and whether its listener threw an object that is no exception. -/
structure Tally where
  accepted : Nat := 0
  recovered : Nat := 0
  failed : Bool := false
  unwound : Bool := false
  deriving Repr, DecidableEq

/-- The tally of the answers to a call. -/
def tallyOf (p : List Exchange) : Tally where
  accepted := p.countP Exchange.accepts
  recovered := (p.map (·.effect.recovered)).sum
  failed := p.any (·.effect.reportsFailure)
  unwound := p.any Exchange.unwinds

namespace Tally

/-- All accepted offers are counted, or none if the call was counted as failed or its listener threw
an object that is no exception. -/
def Settled (t : Tally) : Prop := t.recovered = if t.failed || t.unwound then 0 else t.accepted

/-- A listener that throws an object that is no exception ends the call with it. -/
def Ended {α : Type} (t : Tally) (a : Except Failure α) : Prop :=
  t.unwound → ∃ f, a = .error f ∧ f.isException = false

/-- What the body of an operation has counted, before the operation itself is counted. -/
structure Even {α : Type} (t : Tally) (a : Except Failure α) : Prop where
  failed : t.failed = false
  ended : t.Ended a
  returned : ∀ v, a = .ok v → t.recovered = t.accepted
  raised : ∀ f, a = .error f → t.recovered = 0 ∧ (f.isException ∨ t.unwound ∨ t.accepted = 0)

/-- How a call stands with its telemetry, which counts some calls as failed and others not. -/
structure Reports {α : Type} (counted : Bool) (t : Tally) (a : Except Failure α) : Prop where
  settled : t.Settled
  failed : t.failed ↔ counted ∧ ∃ f, a = .error f ∧ f.isException
  ended : t.Ended a

end Tally

namespace Request

/-- Whether a call is a pass under a cursor. -/
def isPass : Request → Bool
  | recoverNext .. => true
  | _ => false

/-- How a call that is done stands with its telemetry. A pass is never counted as failed. -/
def Books (r : Request) (p : List Exchange) (a : Except Failure r.Result) : Prop :=
  (tallyOf p).Reports (!r.isPass) a

end Request

/-- Whether a request changes a tally, for some answer. -/
def Effect.isTallied : Effect → Bool
  | .hasCapacity | .offer _ | .countRecovered .. | .countOperation .. => true
  | _ => false

/-- Messages are counted for the destination that is served. -/
def Effect.CountsFor (d : String) : Effect → Prop
  | .countRecovered d' _ => d' = d
  | _ => True

/-- An operation counts for a destination, and where it ends a condition holds. -/
abbrev Op.Counts {α : Type} (d : String) (Q : Tally → Except Failure α → Prop) (x : Op α)
    (p : List Exchange) : Prop :=
  x.Obeys (fun _ e => e.CountsFor d) (fun p a => Q (tallyOf p) a) p

section

variable {α β : Type} {d : String} {p : List Exchange} {x : Exchange} {e : Effect} {t : Tally}
  {f : Failure}

@[simp] theorem tallyOf_nil : tallyOf [] = {} := rfl

theorem tallyOf_snoc : tallyOf (p ++ [x]) =
    ⟨(tallyOf p).accepted + (if x.accepts then 1 else 0), (tallyOf p).recovered + x.effect.recovered,
      (tallyOf p).failed || x.effect.reportsFailure, (tallyOf p).unwound || x.unwinds⟩ := by
  simp [tallyOf, List.countP_append, List.countP_singleton]

theorem tallyOf_aside (h : x.effect.isTallied = false) : tallyOf (p ++ [x]) = tallyOf p := by
  obtain ⟨e, a⟩ := x
  have hnone : (Exchange.mk e a).accepts = false ∧ e.recovered = 0 ∧ e.reportsFailure = false ∧
      (Exchange.mk e a).unwinds = false := by
    cases e <;> first | exact ⟨rfl, rfl, rfl, rfl⟩ | cases h
  simp [tallyOf_snoc, hnone]

theorem tallyOf_accepted {o : Offer} : tallyOf (p ++ [⟨.offer o, .ok true⟩]) =
    { tallyOf p with accepted := (tallyOf p).accepted + 1 } := by
  simp [tallyOf_snoc, Exchange.accepts, Effect.recovered, Effect.reportsFailure, Exchange.unwinds]

theorem tallyOf_rejected {o : Offer} : tallyOf (p ++ [⟨.offer o, .ok false⟩]) = tallyOf p := by
  simp [tallyOf_snoc, Exchange.accepts, Effect.recovered, Effect.reportsFailure, Exchange.unwinds]

theorem tallyOf_capacity {b : Bool} : tallyOf (p ++ [⟨.hasCapacity, .ok b⟩]) = tallyOf p := by
  simp [tallyOf_snoc, Exchange.accepts, Effect.recovered, Effect.reportsFailure, Exchange.unwinds]

theorem tallyOf_thrown (he : x = ⟨.hasCapacity, .error f⟩ ∨ ∃ o, x = ⟨.offer o, .error f⟩) :
    tallyOf (p ++ [x]) =
      { tallyOf p with unwound := (tallyOf p).unwound || !f.isException } := by
  obtain rfl | ⟨o, rfl⟩ := he <;>
    simp [tallyOf_snoc, Exchange.accepts, Effect.recovered, Effect.reportsFailure, Exchange.unwinds]

theorem tallyOf_recovered {n : Nat} {d' : String} {u : Unit} :
    tallyOf (p ++ [⟨.countRecovered d' n, u⟩]) =
      { tallyOf p with recovered := (tallyOf p).recovered + n } := by
  simp [tallyOf_snoc, Exchange.accepts, Effect.recovered, Effect.reportsFailure, Exchange.unwinds]

theorem tallyOf_operation {operation d' : String} {b : Bool} {u : Unit} :
    tallyOf (p ++ [⟨.countOperation operation d' b, u⟩]) =
      { tallyOf p with failed := (tallyOf p).failed || !b } := by
  cases b <;> simp [tallyOf_snoc, Exchange.accepts, Effect.recovered, Effect.reportsFailure,
    Exchange.unwinds]

theorem Tally.reports_of_ok {v : α} (h : t.Even (.ok v : Except Failure α)) :
    t.Reports true (.ok v : Except Failure α) := by
  have hquiet : t.unwound = false := Bool.eq_false_iff.2 fun hu => by simpa using h.ended hu
  exact ⟨by simp [Settled, h.failed, hquiet, h.returned v rfl], by simp [h.failed], h.ended⟩

theorem Tally.reports_of_exception (h : t.Even (.error f : Except Failure α)) (hf : f.isException) :
    Tally.Reports true { t with failed := true } (.error f : Except Failure α) :=
  ⟨by simp [Settled, (h.raised f rfl).1], by simp [hf], h.ended⟩

/-- An object that is no exception goes uncounted. -/
theorem Tally.reports_of_object (h : t.Even (.error f : Except Failure α))
    (hf : f.isException = false) : t.Reports true (.error f : Except Failure α) := by
  refine ⟨?_, by simp [h.failed, hf], h.ended⟩
  obtain ⟨hnone, hcause⟩ := h.raised f rfl
  rcases hcause with he | hu | ha
  · simp [hf] at he
  · simp [Settled, hnone, hu]
  · simp [Settled, hnone, ha]

/-- Nothing was counted yet. -/
theorem Tally.even_idle {a : Except Failure α} : Tally.Even {} a :=
  ⟨rfl, nofun, fun _ _ => rfl, fun _ _ => ⟨rfl, Or.inr (Or.inr rfl)⟩⟩

theorem Tally.reports_idle {a : Except Failure α} : Tally.Reports false {} a :=
  ⟨rfl, by simp, nofun⟩

theorem isTallied_of_isStored (h : e.isStored) : e.isTallied = false := by
  cases e <;> first | rfl | cases h

theorem countsFor_aside (h : e.isTallied = false) : e.CountsFor d := by
  cases e <;> trivial

namespace Op

variable {x : Op α}

theorem avoids_stored {context : String} (h : x.Avoids Effect.isTallied) :
    (inContext context (inTransaction x)).Avoids Effect.isTallied :=
  avoids_transacted (fun _ => isTallied_of_isStored) h

/-- What changes no tally leaves it. -/
theorem counts_aside {Q : Tally → Except Failure α → Prop} (h : x.Avoids Effect.isTallied)
    (hQ : ∀ a, Q (tallyOf p) a) : x.Counts d Q p := by
  -- The history grows from step to step, but its tally stays the one at the start.
  suffices ∀ (y : Operation (Except Failure α)) q, tallyOf q = tallyOf p →
      y.Obeys (fun _ e => e.isTallied = false) (fun _ _ => True) q →
      y.Obeys (fun _ e => e.CountsFor d) (fun q a => Q (tallyOf q) a) q from this x.run p rfl (h p)
  intro y
  induction y with
  | done a =>
    intro q hq _
    exact (congrArg (Q · a) hq).mpr (hQ a)
  | perform e next ih =>
    exact fun q hq h => ⟨countsFor_aside h.1, fun a =>
      ih a _ ((tallyOf_aside h.1).trans hq) (h.2 a)⟩

theorem counts_ask {f : e.Reply → Op β} {Q : Tally → Except Failure β → Prop} (he : e.CountsFor d)
    (hf : ∀ a, (f a).Counts d Q (p ++ [⟨e, a⟩])) : (ask e >>= f).Counts d Q p := ⟨he, hf⟩

theorem counts_bind {f : α → Op β} {Q : Tally → Except Failure α → Prop}
    {Q' : Tally → Except Failure β → Prop} (hx : x.Counts d Q p)
    (he : ∀ t g, Q t (.error g) → Q' t (.error g))
    (hf : ∀ q a, Q (tallyOf q) (.ok a) → (f a).Counts d Q' q) : (x >>= f).Counts d Q' p := by
  refine obeys_bind.2 (obeys_mono ?_ hx)
  rintro q (g | a) hq
  · exact he _ g hq
  · exact hf q a hq

/-- What comes behind something that changes no tally starts where that started. -/
theorem counts_behind {f : α → Op β} {Q : Tally → Except Failure β → Prop} (hp : tallyOf p = t)
    (hx : x.Avoids Effect.isTallied) (he : ∀ g, Q t (.error g))
    (hf : ∀ q a, tallyOf q = t → (f a).Counts d Q q) : (x >>= f).Counts d Q p := by
  refine counts_bind (Q := fun t' _ => t' = t) (counts_aside hx fun _ => hp) ?_ hf
  rintro _ g rfl
  exact he g

/-- An operation that is seen by the telemetry is counted as failed where it fails. -/
theorem counts_observed {operation destination : String} {key : Option SubscriberKey}
    (h : ∀ p, tallyOf p = {} → x.Counts d Tally.Even p) :
    (observed operation destination key x).Counts d (Tally.Reports true) [] := by
  refine obeys_bind.2 ⟨trivial, fun span => obeys_bind.2 (obeys_attempt.2 (obeys_mono ?_
    (h _ (tallyOf_aside rfl))))⟩
  rintro p a ha
  have hend : ∀ q, (tallyOf q).Reports true a →
      (tallyOf (q ++ [⟨.endSpan span, ()⟩])).Reports true a :=
    fun q hq => by rwa [tallyOf_aside rfl]
  cases a with
  | ok v =>
    refine ⟨trivial, fun _ => ⟨trivial, fun _ => hend _ ?_⟩⟩
    simpa [tallyOf_operation] using Tally.reports_of_ok ha
  | error f =>
    refine obeys_bind.2 (obeys_mono (Q := fun q b => b = .ok () ∧ (tallyOf q).Reports true
      (.error f : Except Failure α)) ?_ ?_)
    · rintro q _ ⟨rfl, hq⟩
      exact ⟨trivial, fun _ => hend q hq⟩
    · simp only [report]
      split
      · rename_i hf
        refine ⟨trivial, fun _ => ⟨trivial, fun _ => ⟨trivial, fun _ => ⟨rfl, ?_⟩⟩⟩⟩
        rw [tallyOf_operation, tallyOf_aside rfl, tallyOf_aside rfl]
        simpa using Tally.reports_of_exception ha hf
      · rename_i hf
        exact ⟨rfl, Tally.reports_of_object ha (by simpa using hf)⟩

end Op

section

variable {k : SubscriberKey} {limit : Nat} {mode : Mode} {row : Row} {rows : List Row}
  {span : Telemetry.Span}

open Op

/-- A row is offered, unless it cannot be read. -/
theorem counts_deliver {Q : List Exchange → Except Failure Bool → Prop}
    (hyes : ∀ q, tallyOf q = { tallyOf p with accepted := (tallyOf p).accepted + 1 } → Q q (.ok true))
    (hno : ∀ q, tallyOf q = tallyOf p → Q q (.ok false))
    (hfailed : ∀ q f, tallyOf q = { tallyOf p with
      unwound := (tallyOf p).unwound || !f.isException } → Q q (.error f)) :
    (deliver mode row).Obeys (fun _ e => e.CountsFor d) Q p := by
  rw [deliver_eq]
  refine obeys_bind.2 (obeys_ofExcept.2 ?_)
  cases ho : offerOf mode row with
  | error f => exact hfailed p f (by simp [offerOf_exception ho])
  | ok o =>
    refine ⟨trivial, ?_⟩
    rintro (f | _ | _)
    · exact hfailed _ f (tallyOf_thrown (Or.inr ⟨o, rfl⟩))
    · exact hno _ tallyOf_rejected
    · exact hyes _ tallyOf_accepted

/-- The rows of a pass count with its progress. -/
theorem counts_offerRows {q : Progress} (hq : q.failure = none)
    (hp : tallyOf p = { accepted := q.delivered }) : (offerRows mode q rows).Counts d (fun t a =>
      ∃ q', a = .ok q' ∧
        t = { accepted := q'.delivered, unwound := !q'.failure.all Failure.isException }) p := by
  induction rows generalizing q p with
  | nil => exact ⟨q, rfl, by simp [hp, hq]⟩
  | cons row rows ih =>
    unfold offerRows
    split
    · exact ih hq hp
    refine obeys_bind.2 (obeys_attempt.2 (obeys_bind.2 ⟨trivial, ?_⟩))
    rintro (f | _ | _)
    · exact ⟨_, rfl, by rw [tallyOf_thrown (Or.inl rfl), hp]; rfl⟩
    · exact ⟨q, rfl, by rw [tallyOf_capacity, hp, hq]; rfl⟩
    have hp : tallyOf (p ++ [⟨.hasCapacity, .ok true⟩]) = { accepted := q.delivered } :=
      tallyOf_capacity.trans hp
    refine (counts_deliver (fun q' hq' => ?_) (fun q' hq' => ?_) fun q' f hq' => ?_ :
      (deliver mode row).Obeys (fun _ e => e.CountsFor d) _ _)
    · exact ih (q := { q with mark := row.mark, delivered := q.delivered + 1 }) hq (by rw [hq', hp])
    · exact ⟨q, rfl, by rw [hq', hp, hq]; rfl⟩
    · exact ⟨_, rfl, by rw [hq', hp]; rfl⟩

/-- Whatever ends the offers of a pass, those that were accepted are counted, unless it is an object
that is no exception. -/
theorem counts_offerAndKeep {slot : Nat} {w : Watermark} (hp : tallyOf p = {}) :
    (offerAndKeep d mode span slot w rows).Counts d (Tally.Reports false) p := by
  refine counts_bind (counts_offerRows rfl hp) (fun t g h => by simp at h) ?_
  rintro p q ⟨_, ⟨⟩, hq⟩
  cases he : q.failure.all Failure.isException with
  | true =>
    rw [he] at hq
    simp only [settle, he, if_true]
    refine counts_ask trivial fun _ => counts_ask rfl fun _ => counts_aside ?_ fun _ => ?_
    · cases q.failure with
      | some f => exact fun _ => trivial
      | none => exact fun _ => ⟨rfl, fun _ => trivial⟩
    · rw [tallyOf_recovered, tallyOf_aside rfl, hq]
      exact ⟨by simp [Tally.Settled], by simp, by simp [Tally.Ended]⟩
  | false =>
    obtain ⟨f, hf, hobject⟩ : ∃ f, q.failure = some f ∧ f.isException = false := by
      simpa [Option.all_eq_false] using he
    rw [he] at hq
    simp only [settle, hf, Option.all_some, hobject, Bool.false_eq_true, if_false]
    change Tally.Reports false (tallyOf p) (.error f)
    rw [hq]
    exact ⟨rfl, by simp, fun _ => ⟨f, rfl, hobject⟩⟩

theorem counts_pass {lease : Lease} (hp : tallyOf p = {}) :
    (pass d k limit mode span lease).Counts d (Tally.Reports false) p := by
  have hidle : ∀ g, Tally.Reports false {} (.error g : Except Failure Nat) := fun _ =>
    Tally.reports_idle
  refine counts_behind hp (avoids_startOf fun _ => isTallied_of_isStored) hidle fun p w hp => ?_
  refine counts_behind hp (avoids_ask rfl) hidle fun p _ hp => ?_
  refine counts_behind hp (avoids_readRows fun _ => isTallied_of_isStored) hidle
    fun p read hp => ?_
  obtain ⟨rows, f | _⟩ := read
  · refine counts_ask trivial fun _ => counts_ask trivial fun _ => counts_ask trivial fun _ =>
      counts_offerAndKeep ?_
    rw [tallyOf_aside rfl, tallyOf_aside rfl, tallyOf_aside rfl, hp]
  · exact counts_offerAndKeep hp

theorem counts_recoverNext : (recoverNext d k limit mode).Counts d (Tally.Reports false) [] := by
  have hidle : ∀ g, Tally.Reports false {} (.error g : Except Failure Nat) := fun _ =>
    Tally.reports_idle
  refine counts_behind tallyOf_nil avoids_validate hidle fun p _ hp => ?_
  refine counts_behind hp (avoids_ask rfl) hidle fun p span hp => ?_
  refine counts_behind hp (avoids_ask rfl) hidle fun p lease hp => ?_
  refine obeys_bind.2 (obeys_attempt.2 (obeys_mono ?_ (counts_pass hp)))
  intro p a ha
  refine ⟨trivial, fun _ => ⟨trivial, fun _ => obeys_ofExcept.2 ?_⟩⟩
  rw [tallyOf_aside rfl, tallyOf_aside rfl]
  exact ha

/-- Rows are offered until one is rejected or a failure ends them. Only where they end well their
number is known. -/
theorem counts_offerAll {n : Nat} (hp : tallyOf p = { accepted := n }) :
    (offerAll mode n rows).Counts d (fun t a => match a with
      | .ok m => t = { accepted := m }
      | .error f => ∃ m, t = { accepted := m, unwound := !f.isException }) p := by
  induction rows generalizing n p with
  | nil => exact hp
  | cons row rows ih =>
    refine obeys_bind.2 (counts_deliver (fun q hq => ih (by rw [hq, hp])) (fun q hq => ?_)
      fun q f hq => ?_)
    · exact hq.trans hp
    · exact ⟨n, by rw [hq, hp]; rfl⟩

theorem avoids_readAll {context : String} : (readAll d k context).Avoids Effect.isTallied :=
  avoids_bind (avoids_ask rfl) fun _ => avoids_bind avoids_ofExcept fun _ =>
    avoids_bind avoids_ofExcept fun _ _ => trivial

/-- A recovery of everything counts what was accepted behind the last offer, and so nothing where a
failure comes before that. -/
theorem counts_recoverAll : (recoverAll d k mode).Counts d (Tally.Reports true) [] := by
  refine counts_observed fun p hp => ?_
  refine counts_behind hp avoids_validate (fun _ => Tally.even_idle) fun p _ hp => ?_
  refine counts_behind hp (avoids_stored avoids_readAll) (fun _ => Tally.even_idle)
    fun p rows hp => ?_
  refine counts_bind (counts_offerAll hp) ?_ ?_
  · rintro _ g ⟨m, rfl⟩
    refine ⟨rfl, fun hu => ⟨g, rfl, by simpa using hu⟩, nofun, ?_⟩
    rintro _ ⟨⟩
    exact ⟨rfl, by cases g.isException <;> simp⟩
  · rintro p n ht
    refine counts_ask rfl fun _ => ?_
    change Tally.Even (tallyOf _) _
    rw [tallyOf_recovered, show tallyOf p = _ from ht]
    exact ⟨rfl, nofun, by simp, nofun⟩

variable {m : Message} {b : Bool}

/-- What asks nothing of a listener counts nothing. -/
theorem counts_observed_aside {operation destination : String} {key : Option SubscriberKey}
    {x : Op α} (h : x.Avoids Effect.isTallied) :
    (observed operation destination key x).Counts d (Tally.Reports true) [] := by
  refine counts_observed fun p hp => counts_aside h fun a => ?_
  rw [hp]
  exact Tally.even_idle

theorem counts_publish : (publish d m).Counts d (Tally.Reports true) [] := by
  refine counts_observed_aside (avoids_bind ?_ fun _ => avoids_bind (avoids_stored ?_) fun _ =>
    avoids_bind (avoids_ask rfl) fun _ _ => trivial)
  · exact fun p => obeys_mono (fun _ _ _ => trivial) validateMessage_obeys
  · exact avoids_bind (fun _ => ⟨rfl, fun _ => trivial⟩) fun _ =>
      avoids_bind avoids_ofExcept fun _ _ => trivial

theorem counts_acknowledge {i : String} :
    (acknowledge d k i .standard).Counts d (Tally.Reports true) [] := by
  refine counts_observed_aside (avoids_bind avoids_validate fun _ =>
    avoids_bind (avoids_stored ?_) fun _ => avoids_ask rfl)
  refine avoids_bind (fun _ => ⟨rfl, fun _ => trivial⟩) fun found => ?_
  cases found with
  | none => exact fun _ => trivial
  | some w =>
    exact avoids_bind (fun _ => ⟨rfl, fun _ => trivial⟩) fun _ =>
      avoids_bind avoids_ofExcept fun _ _ => trivial

theorem counts_subscribe {info : Subscription} :
    (subscribe d info b).Counts d (Tally.Reports true) [] := by
  refine counts_observed_aside (avoids_bind avoids_validate fun _ => ?_)
  simp only
  split
  · exact fun _ => trivial
  · exact avoids_bind (avoids_stored (avoids_bind (fun _ => ⟨rfl, fun _ => trivial⟩) fun _ =>
      avoids_ofExcept)) fun _ => avoids_ask rfl

theorem counts_lookup : (lookup d k).Counts d (Tally.Reports true) [] :=
  counts_observed_aside (avoids_bind avoids_validate fun _ =>
    avoids_stored fun _ => ⟨rfl, fun _ => trivial⟩)

theorem counts_subscriptions : (subscriptions d).Counts d (Tally.Reports true) [] :=
  counts_observed_aside (avoids_stored fun _ => ⟨rfl, fun _ => trivial⟩)

theorem counts_unsubscribe : (unsubscribe d k).Counts d (Tally.Reports true) [] := by
  refine counts_observed_aside (avoids_bind avoids_validate fun _ => avoids_bind (avoids_attempt
    (avoids_stored ?_)) fun _ => avoids_bind (avoids_ask rfl) fun _ => avoids_bind avoids_ofExcept
      fun _ => avoids_ask rfl)
  exact avoids_bind (fun _ => ⟨rfl, fun _ => trivial⟩) fun _ => avoids_ofExcept

theorem counts_messageCount : (messageCount d k).Counts d (Tally.Reports true) [] :=
  counts_observed_aside (avoids_bind avoids_validate fun _ => avoids_bind
    (avoids_stored fun _ => ⟨rfl, fun _ => trivial⟩) fun _ =>
      avoids_bind (avoids_ask rfl) fun _ _ => trivial)

theorem books_idle {r : Request} {v : r.Result} (hp : tallyOf p = {}) : r.Books p (.ok v) := by
  rw [Request.Books, hp]
  exact ⟨rfl, by simp, nofun⟩

/-- Every call counts all that its listener accepted or, where it is counted as failed or was ended by
an object that is no exception, nothing. -/
theorem operation_books (r : Request) :
    (r.operation d).Obeys (fun _ e => e.CountsFor d) r.Books [] := by
  have hobserved : r.isPass = false → (r.operation d).Counts d (Tally.Reports true) [] →
      (r.operation d).Obeys (fun _ e => e.CountsFor d) r.Books [] := fun hr h =>
    Operation.obeys_mono (fun _ _ ha => by rwa [Request.Books, hr]) h
  cases r with
  | publish m => exact hobserved rfl counts_publish
  | acknowledge k i kind =>
    cases kind with
    | standard => exact hobserved rfl counts_acknowledge
    | unmatched => exact ⟨trivial, fun _ => books_idle (tallyOf_aside rfl)⟩
  | recoverNext k limit mode => exact counts_recoverNext
  | recoverAll k mode => exact hobserved rfl counts_recoverAll
  | resetBatching k =>
    exact ⟨trivial, fun _ => ⟨trivial, fun _ =>
      books_idle ((tallyOf_aside rfl).trans (tallyOf_aside (p := []) rfl))⟩⟩
  | subscribe info b => exact hobserved rfl counts_subscribe
  | lookup k => exact hobserved rfl counts_lookup
  | subscriptions => exact hobserved rfl counts_subscriptions
  | unsubscribe k => exact hobserved rfl counts_unsubscribe
  | messageCount k => exact hobserved rfl counts_messageCount
  | cachedWatermark k => exact ⟨trivial, fun _ => books_idle (tallyOf_aside rfl)⟩

end
end
end DurableTopic.Store

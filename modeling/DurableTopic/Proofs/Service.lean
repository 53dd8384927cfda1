import DurableTopic.Proofs.Calm
import DurableTopic.Store.Script
/-! What a call gives when nothing hinders the host and the listener takes all it is offered: the
result, the offers, and where the host stands afterwards. -/
namespace DurableTopic.Store

open Cursor (Thread)
open Repository (Call Ledger)

/-- A listener with a memory that always has capacity, accepts what it is offered and makes no calls.
What it was offered is part of what it remembers. -/
structure Listener.Willing {σ : Type} (l : Listener (StateT σ Session)) (seen : σ → List Offer) :
    Prop where
  hasCapacity : ∀ j h, ∃ j', l.hasCapacity j h = some ((.ok true, j'), h) ∧ seen j' = seen j
  offer : ∀ o j h, ∃ j', l.offer o j h = some ((.ok true, j'), h) ∧ seen j' = seen j ++ [o]

/-- A script without any rules is willing. -/
theorem willing_script {δ : Type} :
    ({} : Script δ).listener.Willing fun j => j.offers.map (·.offer) where
  hasCapacity j _ := ⟨{ j with checks := j.checks + 1 }, rfl, rfl⟩
  offer o j _ := ⟨{ j with accepted := j.accepted + 1, offers := j.offers ++ [⟨o, true, none⟩] },
    rfl, by simp⟩

/-- A backend and what it holds, and the thread that makes calls. -/
structure Scene where
  keeping : Keeping
  base : Ledger
  thread : Thread

/-- Where a host stands between two requests: how far a transaction has come, and what holds of the
cursors. -/
structure Point where
  phase : Phase
  cursors : Cursor.Cache → Prop

/-- A host without faults that holds what a scene says, at some point. -/
def Scene.At (W : Scene) (A : Point) (h : Host) : Prop :=
  h.Calm W.keeping A.phase W.base W.base ∧ A.cursors h.cursors

/-- Whoever is willing is served alike: an operation gives a result, makes some offers and leads to
some host. -/
def Operation.Serves {α : Type} (t : Thread) (x : Operation α) (h : Host) (a : α) (os : List Offer)
    (h' : Host) : Prop :=
  ∀ (σ : Type) (l : Listener (StateT σ Session)) (seen : σ → List Offer), l.Willing seen → ∀ j,
    ∃ j', x.run (l.answer t) j h = some ((a, j'), h') ∧ seen j' = seen j ++ os

/-- From one point an operation leads to another, gives a result and makes some offers. -/
def Operation.Gives {α : Type} (W : Scene) (x : Operation α) (A : Point) (a : α) (os : List Offer)
    (B : Point) : Prop :=
  ∀ h, W.At A h → ∃ h', x.Serves W.thread h a os h' ∧ W.At B h'

/-- The same for an operation that may fail. -/
def Op.Gives {α : Type} (W : Scene) (x : Op α) (A : Point) (a : Except Failure α)
    (os : List Offer) (B : Point) : Prop :=
  Operation.Gives W x.run A a os B

variable {α β : Type} {W : Scene} {A B C : Point} {os os' : List Offer}

namespace Operation

variable {t : Thread} {h h' h'' : Host} {a : α} {b : β}

theorem serves_done : (done a).Serves t h a [] h :=
  fun _ _ _ _ j => ⟨j, rfl, (List.append_nil _).symm⟩

theorem serves_bind {x : Operation α} {f : α → Operation β} (hx : x.Serves t h a os h')
    (hf : (f a).Serves t h' b os' h'') : (x.bind f).Serves t h b (os ++ os') h'' := by
  intro σ l seen hl j
  obtain ⟨j₁, hrun₁, hj₁⟩ := hx σ l seen hl j
  obtain ⟨j₂, hrun₂, hj₂⟩ := hf σ l seen hl j₁
  refine ⟨j₂, ?_, by rw [hj₂, hj₁, List.append_assoc]⟩
  rw [run_bind]
  change (x.run (m := StateT σ Session) _ j h).bind _ = _
  rw [hrun₁]
  exact hrun₂

/-- A request that is not for the listener is answered by the host. -/
theorem serves_host {e : Effect} {next : e.Reply → Operation α} {r : e.Reply}
    (hc : e.isCallback = false) (hr : h.answer t e = some (r, h'))
    (hx : (next r).Serves t h' a os h'') : (perform e next).Serves t h a os h'' := by
  intro σ l seen hl j
  obtain ⟨j₁, hrun, hj⟩ := hx σ l seen hl j
  have ha : l.answer t e j h = some ((r, j), h') := by
    have hlift : l.answer t e j h = (h.answer t e).bind fun p => some ((p.1, j), p.2) := by
      cases e <;> first | rfl | cases hc
    rw [hlift, hr]
    rfl
  refine ⟨j₁, ?_, hj⟩
  rw [run_perform]
  change (l.answer t e j h).bind _ = _
  rw [ha]
  exact hrun

theorem serves_hasCapacity : (ask .hasCapacity).Serves t h (.ok true) [] h := by
  intro σ l seen hl j
  obtain ⟨j', hrun, hj⟩ := hl.hasCapacity j h
  refine ⟨j', ?_, by rw [hj, List.append_nil]⟩
  change (l.hasCapacity j h).bind _ = _
  rw [hrun]
  rfl

theorem serves_offer {o : Offer} : (ask (.offer o)).Serves t h (.ok true) [o] h := by
  intro σ l seen hl j
  obtain ⟨j', hrun, hj⟩ := hl.offer o j h
  refine ⟨j', ?_, hj⟩
  change (l.offer o j h).bind _ = _
  rw [hrun]
  rfl

theorem gives_done : (done a).Gives W A a [] A := fun h hA => ⟨h, serves_done, hA⟩

theorem gives_bind {x : Operation α} {f : α → Operation β} (hx : x.Gives W A a os B)
    (hf : (f a).Gives W B b os' C) : (x.bind f).Gives W A b (os ++ os') C := by
  intro h hA
  obtain ⟨h₁, hs₁, hB⟩ := hx h hA
  obtain ⟨h₂, hs₂, hC⟩ := hf h₁ hB
  exact ⟨h₂, serves_bind hs₁ hs₂, hC⟩

theorem gives_host {e : Effect} {next : e.Reply → Operation α} (B : Point)
    (hc : e.isCallback = false)
    (he : ∀ h, W.At A h → ∃ r h', h.answer W.thread e = some (r, h') ∧ W.At B h' ∧
      (next r).Gives W B a os C) : (perform e next).Gives W A a os C := by
  intro h hA
  obtain ⟨r, h₁, hr, hB, hnext⟩ := he h hA
  obtain ⟨h₂, hs, hC⟩ := hnext h₁ hB
  exact ⟨h₂, serves_host hc hr hs, hC⟩

theorem gives_hasCapacity : (ask .hasCapacity).Gives W A (.ok true) [] A :=
  fun h hA => ⟨h, serves_hasCapacity, hA⟩

theorem gives_offer {o : Offer} : (ask (.offer o)).Gives W A (.ok true) [o] A :=
  fun h hA => ⟨h, serves_offer, hA⟩

end Operation

namespace Op

open Operation (gives_host)

variable {x : Op α} {f : α → Op β} {r : Except Failure α} {b : Except Failure β}

theorem gives_pure {a : α} : (pure a : Op α).Gives W A (.ok a) [] A := Operation.gives_done

theorem gives_throw {e : Failure} : (throw e : Op α).Gives W A (.error e) [] A :=
  Operation.gives_done

theorem gives_ofExcept : (ofExcept r).Gives W A r [] A := by
  cases r <;> exact Operation.gives_done

theorem gives_bind {a : α} (hx : x.Gives W A (.ok a) os B) (hf : (f a).Gives W B b os' C) :
    (x >>= f).Gives W A b (os ++ os') C := Operation.gives_bind hx hf

theorem gives_bind_error {e : Failure} (hx : x.Gives W A (.error e) os B) :
    (x >>= f).Gives W A (.error e) os B := by
  rw [← List.append_nil os]
  exact Operation.gives_bind (f := ExceptT.bindCont f) hx Operation.gives_done

/-- What offers nothing before. -/
theorem gives_then {a : α} (hx : x.Gives W A (.ok a) [] B) (hf : (f a).Gives W B b os C) :
    (x >>= f).Gives W A b os C := gives_bind hx hf

/-- What offers nothing afterwards. -/
theorem gives_rest {a : α} (hx : x.Gives W A (.ok a) os B) (hf : (f a).Gives W B b [] C) :
    (x >>= f).Gives W A b os C := by
  rw [← List.append_nil os]
  exact gives_bind hx hf

theorem gives_lift {x : Operation α} {a : α} (hx : x.Gives W A a os B) :
    Op.Gives W (ExceptT.lift x) A (.ok a) os B := by
  rw [← List.append_nil os]
  exact Operation.gives_bind hx Operation.gives_done

theorem gives_attempt (hx : x.Gives W A r os B) : (attempt x).Gives W A (.ok r) os B :=
  gives_lift hx

theorem gives_inContext {context : String} (hx : x.Gives W A r os B) :
    (inContext context x).Gives W A (r.mapError (Failure.inContext context)) os B := by
  rw [← List.append_nil os]
  exact Operation.gives_bind hx Operation.gives_done

theorem at_of_backend {h h' : Host} (hA : W.At A h) (hb : h'.backend = h.backend)
    (hd : h'.destination = h.destination) (hc : A.cursors h'.cursors) : W.At A h' :=
  ⟨Host.calm_of_backend hA.1 hb hd, hc⟩

/-- What is told to the log and the telemetry changes nothing. -/
theorem gives_told {e : Effect} {f : e.Reply → Op β} (he : e.isTold)
    (hf : ∀ a, (f a).Gives W A b os B) : (ask e >>= f).Gives W A b os B := by
  refine gives_host A (by cases e <;> first | rfl | cases he) fun h hA => ?_
  obtain ⟨a, h', ha, hb, hc, hd⟩ := Host.answer_told (t := W.thread) he
  exact ⟨a, h', ha, at_of_backend hA hb hd (hc ▸ hA.2), hf a⟩

theorem gives_report {operation destination : String} {key : Option SubscriberKey}
    {span : Telemetry.Span} {f : Failure} :
    (report operation destination key span f).Gives W A (.ok ()) [] A := by
  unfold report
  split
  · exact gives_told rfl fun _ => gives_told rfl fun _ => gives_told rfl fun _ => gives_pure
  · exact gives_pure

theorem gives_observed {operation destination : String} {key : Option SubscriberKey}
    (hx : x.Gives W A r os B) : (observed operation destination key x).Gives W A r os B := by
  refine gives_told rfl fun span => ?_
  refine gives_rest (gives_attempt hx) ?_
  cases r with
  | ok a => exact gives_told rfl fun _ => gives_told rfl fun _ => gives_pure
  | error f => exact gives_then gives_report (gives_told rfl fun _ => gives_throw)

variable {P : Cursor.Cache → Prop}

theorem gives_begin : Op.begin.Gives W ⟨.closed, P⟩ (.ok ()) [] ⟨.active, P⟩ := by
  refine gives_host ⟨.active, P⟩ rfl fun h hA => ?_
  obtain ⟨hok, hc, hcalm⟩ := Host.calm_begin hA.1
  exact ⟨h.begin.1, h.begin.2, rfl, ⟨hcalm, hc ▸ hA.2⟩, hok ▸ Operation.gives_done⟩

theorem gives_commit : Op.commit.Gives W ⟨.active, P⟩ (.ok ()) [] ⟨.ended, P⟩ := by
  refine gives_host ⟨.ended, P⟩ rfl fun h hA => ?_
  obtain ⟨hok, hc, hcalm⟩ := Host.calm_commit hA.1
  exact ⟨h.commit.1, h.commit.2, rfl, ⟨hcalm, hc ▸ hA.2⟩, hok ▸ Operation.gives_done⟩

theorem gives_close {p : Phase} : (ask .close).Gives W ⟨p, P⟩ (.ok ()) [] ⟨.closed, P⟩ := by
  refine gives_host ⟨.closed, P⟩ rfl fun h hA => ?_
  obtain ⟨hc, hcalm⟩ := Host.calm_close hA.1
  exact ⟨(), h.close, rfl, ⟨hcalm, hc ▸ hA.2⟩, Operation.gives_done⟩

/-- A read in a transaction is answered from what is committed. -/
theorem gives_call (c : Call) {a : c.Reply} (hd : c.destination = W.keeping.destination)
    (hn : c.Named)
    (ha : ∀ r l', W.base.Yields W.keeping.spell W.keeping.first c r l' → r = a ∧ l' = W.base) :
    (Operation.ask (.call c)).Gives W ⟨.active, P⟩ a [] ⟨.active, P⟩ := by
  refine gives_host ⟨.active, P⟩ rfl fun h hA => ?_
  obtain ⟨hc, -, l', hcalm, hy⟩ := Host.calm_call hA.1 hd hn
  obtain ⟨hr, rfl⟩ := ha _ _ hy
  exact ⟨_, (h.perform c).2, rfl, ⟨hcalm, hc ▸ hA.2⟩, hr ▸ Operation.gives_done⟩

/-- A transaction that only reads. -/
theorem gives_inTransaction {a : α} (hx : x.Gives W ⟨.active, P⟩ (.ok a) [] ⟨.active, P⟩) :
    (inTransaction x).Gives W ⟨.closed, P⟩ (.ok a) [] ⟨.closed, P⟩ :=
  gives_then gives_begin <| gives_then
    (gives_attempt <| gives_then hx <| gives_then gives_commit gives_pure) <|
    gives_then gives_close gives_ofExcept

theorem gives_validate {k : SubscriberKey} (hk : k.client ≠ "") :
    (validate k).Gives W A (.ok ()) [] A := by
  rw [validate, if_neg (by simpa using hk)]
  exact gives_pure

/-- A subscriber without a client is refused. -/
theorem gives_refused {k : SubscriberKey} {f : Unit → Op β} (hk : k.client = "") :
    (validate k >>= f).Gives W A (.error (.invalidArgument "client id must not be empty")) [] A := by
  rw [validate, if_pos (by simp [hk])]
  exact gives_bind_error gives_throw

variable {k : SubscriberKey} {i : Nat} {w : Watermark} {o : Option Watermark}

/-- A cursor that no thread holds is leased where it stands. -/
theorem gives_acquire {f : Lease → Op β}
    (hf : ∀ i, (f ⟨i, o⟩).Gives W ⟨.closed, (·.Leased W.thread k i o)⟩ b os B) :
    (ask (.acquire k) >>= f).Gives W ⟨.closed, (·.Stands k o)⟩ b os B := by
  intro h hA
  obtain ⟨i, c, hc, hl⟩ := Cursor.Cache.acquire_stands (t := W.thread) hA.2
  refine Operation.gives_host (A := ⟨.closed, (· = h.cursors)⟩)
    ⟨.closed, (·.Leased W.thread k i o)⟩ rfl (fun h₁ hA₁ => ?_) h ⟨hA.1, rfl⟩
  refine ⟨⟨i, o⟩, { h₁ with cursors := c }, ?_, ⟨Host.calm_of_backend hA₁.1 rfl rfl, hl⟩, hf i⟩
  simp only [Host.answer, Host.onCursors]
  rw [hA₁.2, hc]
  rfl

/-- A request that changes the cursors and nothing else. -/
theorem gives_cursors {e : Effect} {r : e.Reply} {p : Phase} {Q : Cursor.Cache → Prop}
    (f : Cursor.Cache → Cursor.Cache) (hc : e.isCallback = false)
    (he : ∀ h : Host, h.answer W.thread e = some (r, { h with cursors := f h.cursors }))
    (hf : ∀ c, P c → Q (f c)) : (ask e).Gives W ⟨p, P⟩ (.ok r) [] ⟨p, Q⟩ :=
  gives_host ⟨p, Q⟩ hc fun h hA => ⟨r, { h with cursors := f h.cursors }, he h,
    ⟨Host.calm_of_backend hA.1 rfl rfl, hf _ hA.2⟩, Operation.gives_done⟩

theorem gives_keep : (ask (.keep i w)).Gives W ⟨.closed, (·.Leased W.thread k i o)⟩ (.ok ()) []
    ⟨.closed, (·.Leased W.thread k i (some w))⟩ :=
  gives_cursors (·.keep i w) rfl (fun _ => rfl) fun _ h => Cursor.Cache.leased_keep h

theorem gives_release : (ask (.release i)).Gives W ⟨.closed, (·.Leased W.thread k i o)⟩ (.ok ()) []
    ⟨.closed, (·.Stands k o)⟩ :=
  gives_cursors (·.release i) rfl (fun _ => rfl) fun _ h => Cursor.Cache.stands_release h

end Op
end DurableTopic.Store

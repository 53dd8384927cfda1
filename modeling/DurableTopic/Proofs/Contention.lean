import DurableTopic.Proofs.Incidents
/-! Calls over an engine that refuses something. Whatever the engine does, and wherever it refuses, the
call stops there and says so once. The code under which it does depends on what was refused. -/
namespace DurableTopic.Store

open Repository (Trouble)
open Repository.Embedded (Accounted Base Engine Incident Query accounted_mono)

/-- The statements that a call may run. -/
def Request.Runs (d : String) (r : Request) (q : Query) : Prop :=
  ∃ c, r.mayCall d c ∧ Repository.Embedded.Runs c q

/-- A call in progress over an engine: its connection, with the incidents so far, and what was
answered. -/
structure Voyage (δ : Type) where
  base : Base (δ × List Incident)
  past : List Exchange := []

namespace Voyage

variable {δ : Type}

/-- The incidents so far. -/
def incidents (s : Voyage δ) : List Incident := s.base.connection.2

/-- Answers a request: the engine does so if it is for the repository, and otherwise the
surroundings. -/
def reply (E : Engine δ) (around : List Exchange → (e : Effect) → e.Reply) (s : Voyage δ) :
    (e : Effect) → e.Reply × Base (δ × List Incident)
  | .begin => s.base.begin E.noted
  | .call c => s.base.perform E.noted c
  | .commit => s.base.commit E.noted
  | .close => ((), (s.base.close E.noted).2)
  | e => (around s.past e, s.base)

/-- Answers a request, and puts it on record. -/
def answer (E : Engine δ) (around : List Exchange → (e : Effect) → e.Reply) (e : Effect) :
    StateM (Voyage δ) e.Reply := fun s =>
  let (a, base) := s.reply E around e
  (a, ⟨base, s.past ++ [⟨e, a⟩]⟩)

/-- The repository on a connection. -/
def repository (s : Voyage Repository.Embedded.Connection) : Repository :=
  .embedded s.base.connection.1 s.base.transaction

/-- What went wrong so far is what the engine refused, if it refused anything. -/
def Accounts (d : String) (r : Request) (s : Voyage δ) : Prop :=
  Accounted (r.Runs d) (s.past.findSome? Exchange.trouble?) s.incidents

end Voyage

/-- Makes a call over an engine, on a connection without a transaction. -/
def Request.voyage {δ : Type} (r : Request) (E : Engine δ)
    (around : List Exchange → (e : Effect) → e.Reply) (d : String) (c : δ) :
    Except Failure r.Result × Voyage δ :=
  Operation.run (Voyage.answer E around) (r.operation d).run ⟨⟨(c, []), none⟩, []⟩

/-- Nothing went wrong. -/
def Faultless (p : List Exchange) : Prop := p.findSome? Exchange.trouble? = none

/-- Where something went wrong, nothing more is asked of the repository. -/
def Halts (p : List Exchange) (e : Effect) : Prop := e.mayFail → Faultless p

/-- What went wrong inside a transaction ends it, with a failure from which the caller's is made. -/
def Raises {α : Type} (context : String) (p : List Exchange) (a : Except Failure α) : Prop :=
  ∀ w, p.findSome? Exchange.trouble? = some w →
    ∃ f, a = .error f ∧ (w.isOwn = false → f.inContext context = w.failure context)

/-- What went wrong is what the caller is told. -/
def Voices {α : Type} (context : String) (p : List Exchange) (a : Except Failure α) : Prop :=
  ∀ w, p.findSome? Exchange.trouble? = some w →
    ∃ f, a = .error f ∧ (w.isOwn = false → f = w.failure context)

section

variable {δ α : Type} {E : Engine δ} {around : List Exchange → (e : Effect) → e.Reply}
  {s : Voyage δ} {e : Effect} {d : String} {r : Request} {stage : Stage}

section

open Repository.Embedded

variable {s : Voyage Connection}

/-- On the engine of a connection, a voyage is answered as by its repository. -/
theorem answer_begin :
    (Voyage.answer Connection.engine around .begin s).map id Voyage.repository =
      s.repository.begin := by
  obtain ⟨⟨⟨c, is⟩, h⟩, past⟩ := s
  have hb : (Connection.engine.noted.begin (c, is)).map id Prod.fst = begin c := begin_engine
  simp only [Voyage.answer, Voyage.reply, Base.begin, Voyage.repository, Repository.begin, ← hb]
  rcases Connection.engine.noted.begin (c, is) with ⟨_ | _, _⟩ <;> rfl

theorem answer_call {call : Repository.Call} :
    (Voyage.answer Connection.engine around (.call call) s).map id Voyage.repository =
      s.repository.perform call := by
  obtain ⟨⟨⟨c, is⟩, _ | h⟩, past⟩ := s
  · rfl
  · have hb : (Connection.engine.noted.perform call (c, is)).map id Prod.fst = perform c call :=
      perform_noted.trans perform_engine
    simp only [Voyage.answer, Voyage.reply, Base.perform, Voyage.repository, Repository.perform,
      ← hb]
    rfl

theorem answer_commit :
    (Voyage.answer Connection.engine around .commit s).map id Voyage.repository =
      s.repository.commit := by
  obtain ⟨⟨⟨c, is⟩, _ | h⟩, past⟩ := s
  · rfl
  · have hb : (Connection.engine.noted.commit h (c, is)).map id (Prod.map id Prod.fst) =
        commit h c := commit_noted.trans commit_engine
    simp only [Voyage.answer, Voyage.reply, Base.commit, Voyage.repository, Repository.commit, ← hb]
    rfl

theorem answer_close :
    (Voyage.answer Connection.engine around .close s).2.repository = s.repository.close.2 := by
  obtain ⟨⟨⟨c, is⟩, _ | h⟩, past⟩ := s
  · rfl
  · have hb : (Connection.engine.noted.close h (c, is)).map id Prod.fst = close h c :=
      close_noted.trans close_engine
    simp only [Voyage.answer, Voyage.reply, Base.close, Voyage.repository, Repository.close, ← hb]
    rfl

end

/-- What is asked of the engine, where nothing went wrong before. -/
theorem reply_accounts (he : e.mayFail) (hs : s.incidents = []) (hp : stage.Permits d r e) :
    Accounted (r.Runs d) (Exchange.mk e (s.reply E around e).1).trouble?
      (s.reply E around e).2.connection.2 := by
  obtain ⟨⟨⟨c, is⟩, h⟩, past⟩ := s
  obtain rfl : is = [] := hs
  cases e with
  | begin =>
    obtain ⟨x, c', js, hx, hjs⟩ := @Repository.Embedded.begin_accounted δ E c [] (r.Runs d)
    simp only [Voyage.reply, Base.begin, hx]
    cases x <;> exact hjs
  | call call =>
    cases h with
    | none => exact Or.inl rfl
    | some h =>
      obtain ⟨x, c', js, hx, hjs⟩ :=
        @Repository.Embedded.perform_accounted δ E c [] call
      simp only [Voyage.reply, Base.perform, hx]
      exact accounted_mono (fun q hq => ⟨call, hp.2.1, hq⟩) hjs
  | commit =>
    cases h with
    | none => exact Or.inl rfl
    | some h =>
      obtain ⟨x, h', c', js, hx, hjs⟩ :=
        @Repository.Embedded.commit_accounted δ E c [] h (r.Runs d)
      simp only [Voyage.reply, Base.commit, hx]
      exact hjs
  | _ => cases he

/-- All else is no incident. -/
theorem reply_aside (he : e.mayFail = false) :
    (s.reply E around e).2.connection.2 = s.incidents ∧
      (Exchange.mk e (s.reply E around e).1).trouble? = none := by
  obtain ⟨⟨⟨c, is⟩, h⟩, past⟩ := s
  cases e with
  | begin | call | commit => cases he
  | close =>
    refine ⟨?_, rfl⟩
    cases h with
    | none => rfl
    | some h => exact Repository.Embedded.close_accounted
  | _ => exact ⟨rfl, rfl⟩

theorem answer_accounts (hs : s.Accounts d r) (he : Halts s.past e) (hp : stage.Permits d r e) :
    (Voyage.answer E around e s).2.Accounts d r := by
  change Accounted _ ((s.past ++ [Exchange.mk e (s.reply E around e).1]).findSome? Exchange.trouble?)
    (s.reply E around e).2.connection.2
  rw [List.findSome?_append, List.findSome?_singleton]
  cases hm : e.mayFail with
  | true =>
    have hnone : s.past.findSome? Exchange.trouble? = none := he hm
    have hi : s.incidents = [] :=
      hs.resolve_right (by rintro ⟨i, -, hi, -⟩; rw [hnone] at hi; cases hi)
    rw [hnone]
    exact reply_accounts hm hi hp
  | false =>
    obtain ⟨hi, ht⟩ := @reply_aside δ E around s e hm
    rw [hi, ht, Option.or_none]
    exact hs

/-- A call that stops asking where something goes wrong accounts for every incident. -/
theorem run_accounts {x : Operation α} {Q : List Exchange → α → Prop} {R : Stage → α → Prop}
    (hs : s.Accounts d r) (hx : x.Obeys Halts Q s.past) (hr : x.Follows d r R stage) :
    (x.run (Voyage.answer E around) s).2.Accounts d r ∧
      Q (x.run (Voyage.answer E around) s).2.past (x.run (Voyage.answer E around) s).1 := by
  induction x generalizing s stage with
  | done a => exact ⟨hs, hx⟩
  | perform e next ih => exact ih _ (answer_accounts hs hx.1 hr.1) (hx.2 _) (hr.2 _)

end

section

variable {α β : Type} {p : List Exchange} {x : Exchange} {s : Status} {f : Failure}
  {context : String} {a : Except Failure α}

theorem trouble_snoc (hx : x.trouble? = none) :
    (p ++ [x]).findSome? Exchange.trouble? = p.findSome? Exchange.trouble? := by
  rw [List.findSome?_append, List.findSome?_singleton, hx, Option.or_none]

/-- What goes wrong first. -/
theorem trouble_first (hp : Faultless p) :
    (p ++ [x]).findSome? Exchange.trouble? = x.trouble? := by
  rw [List.findSome?_append, hp, List.findSome?_singleton, Option.none_or]

theorem faultless_snoc (hp : Faultless p) (hx : x.trouble? = none) : Faultless (p ++ [x]) :=
  (trouble_snoc hx).trans hp

theorem raises_faultless (h : Faultless p) : Raises context p a := by
  intro w hw
  rw [h] at hw
  cases hw

theorem voices_faultless (h : Faultless p) : Voices context p a := by
  intro w hw
  rw [h] at hw
  cases hw

theorem faultless_of_raises {b : α} (h : Raises context p (.ok b)) : Faultless p := by
  cases hw : p.findSome? Exchange.trouble? with
  | none => exact hw
  | some w =>
    obtain ⟨f, hf, -⟩ := h w hw
    cases hf

theorem faultless_of_voices {b : α} (h : Voices context p (.ok b)) : Faultless p := by
  cases hw : p.findSome? Exchange.trouble? with
  | none => exact hw
  | some w =>
    obtain ⟨f, hf, -⟩ := h w hw
    cases hf

theorem raises_error (h : Raises context p (.error f : Except Failure α)) :
    Raises context p (.error f : Except Failure β) := by
  intro w hw
  obtain ⟨g, hg, hown⟩ := h w hw
  cases hg
  exact ⟨f, rfl, hown⟩

theorem raises_raised (hp : Faultless p) (hx : x.trouble? = some (.raise f)) :
    Raises context (p ++ [x]) (.error f : Except Failure α) := by
  intro w hw
  rw [trouble_first hp, hx] at hw
  cases hw
  exact ⟨f, rfl, failure_raised⟩

theorem raises_found (hp : Faultless p) (hx : x.trouble? = Trouble.of? (fun _ => none) a) :
    Raises context (p ++ [x]) a := by
  cases a with
  | error f => exact raises_raised hp hx
  | ok b => exact raises_faultless (faultless_snoc hp hx)

theorem raises_required (hp : Faultless p) (hx : x.trouble? = Trouble.ofStatus? s) :
    Raises context (p ++ [x]) (s.require context) := by
  intro w hw
  rw [trouble_first hp, hx] at hw
  unfold Trouble.ofStatus? at hw
  split at hw
  · cases hw
  · rename_i hs
    cases hw
    exact ⟨_, if_neg hs, fun _ => Failure.inContext_own rfl _⟩

/-- What is asked aside changes nothing. -/
theorem raises_aside (hx : x.trouble? = none) (h : Raises context p a) :
    Raises context (p ++ [x]) a := by
  intro w hw
  exact h w (trouble_snoc hx ▸ hw)

theorem voices_aside (hx : x.trouble? = none) (h : Voices context p a) :
    Voices context (p ++ [x]) a := by
  intro w hw
  exact h w (trouble_snoc hx ▸ hw)

theorem voices_of_raises (h : Raises context p a) :
    Voices context p (a.mapError (Failure.inContext context)) := by
  intro w hw
  obtain ⟨f, rfl, hown⟩ := h w hw
  exact ⟨_, rfl, hown⟩

theorem mayFail_told {e : Effect} (h : e.isTold) : e.mayFail = false := by
  cases e <;> first | rfl | cases h

theorem trouble_aside {e : Effect} {a : e.Reply} (h : e.mayFail = false) :
    (Exchange.mk e a).trouble? = none := by
  cases e <;> first | rfl | cases h

/-- What asks nothing of the repository cannot go wrong there. -/
theorem obeys_aside {Q : List Exchange → α → Prop} {x : Operation α} (hp : Faultless p)
    (hQ : ∀ p a, Faultless p → Q p a)
    (h : x.Obeys (fun _ e => e.mayFail = false) (fun _ _ => True) p) : x.Obeys Halts Q p := by
  induction x generalizing p with
  | done a => exact hQ p a hp
  | perform e next ih =>
    exact ⟨fun he => hp, fun a => ih a (faultless_snoc hp (trouble_aside h.1)) (h.2 a)⟩

namespace Op

variable {body : Op α}

/-- A status that is required ends a call if it is none of success. -/
theorem raises_then {b : α} (h : Raises context p (s.require context)) :
    (do require s context; pure b : Op α).Obeys Halts (Raises context) p := by
  refine obeys_bind.2 (obeys_require.2 ?_)
  cases hr : s.require context with
  | error f => exact raises_error (hr ▸ h)
  | ok _ => exact raises_faultless (faultless_of_raises (hr ▸ h))

theorem voices_transacted (hp : Faultless p)
    (h : ∀ p, Faultless p → body.Obeys Halts (Raises context) p) :
    (inContext context (inTransaction body)).Obeys Halts (Voices context) p := by
  refine obeys_inContext.2 (obeys_mono (fun _ _ => voices_of_raises) ?_)
  refine obeys_bind.2 ⟨fun _ => hp, ?_⟩
  rintro (f | ⟨⟨⟩⟩)
  · exact raises_raised hp rfl
  refine obeys_bind.2 (obeys_attempt.2 (obeys_bind.2 (obeys_mono ?_ (h _ (faultless_snoc hp rfl)))))
  rintro p (f | b) hp
  · exact obeys_bind.2 ⟨nofun, fun _ => raises_aside rfl hp⟩
  · have hp := faultless_of_raises hp
    refine obeys_bind.2 ⟨fun _ => hp, ?_⟩
    rintro (f | ⟨⟨⟩⟩)
    · exact obeys_bind.2 ⟨nofun, fun _ => raises_aside rfl (raises_raised hp rfl)⟩
    · exact obeys_bind.2 ⟨nofun, fun _ =>
        raises_faultless (faultless_snoc (faultless_snoc hp rfl) rfl)⟩

/-- What follows a transaction asks nothing more of the repository. -/
theorem voices_bind {f : α → Op β} (h : body.Obeys Halts (Voices context) p)
    (hf : ∀ a p, (f a).Obeys (fun _ e => e.mayFail = false) (fun _ _ => True) p) :
    (body >>= f).Obeys Halts (Voices context) p := by
  refine obeys_bind.2 (obeys_mono ?_ h)
  rintro p (f | a) hp
  · intro w hw
    obtain ⟨g, hg, hown⟩ := hp w hw
    cases hg
    exact ⟨f, rfl, hown⟩
  · exact obeys_aside (faultless_of_voices hp) (fun _ _ => voices_faultless) (hf a p)

theorem voices_observed {operation d : String} {key : Option SubscriberKey}
    (h : ∀ p, Faultless p → body.Obeys Halts (Voices context) p) :
    (observed operation d key body).Obeys Halts (Voices context) [] :=
  obeys_observed (fun _ _ he hf => absurd hf (by simp [mayFail_told he]))
    (fun _ _ _ hx => voices_aside (trouble_aside (mayFail_told hx))) fun _ => h _ rfl

theorem voices_validate {k : SubscriberKey} {f : Unit → Op α} (hp : Faultless p)
    (h : (f ()).Obeys Halts (Voices context) p) :
    (validate k >>= f).Obeys Halts (Voices context) p :=
  obeys_bind.2 (obeys_validate (fun _ => voices_faultless hp) h)

end Op

end

/-- What a call attempts, if it is one that reports the failures of its repository. -/
def Request.context? : Request → Option String
  | .recoverAll k _ => some ("Failed to recover subscription: " ++ k.client)
  | r => r.caption?.map (·.context)

section

open Op

variable {d : String} {k : SubscriberKey} {p : List Exchange} {context : String} {r : Request}

theorem readAll_raises (hp : Faultless p) :
    (readAll d k context).Obeys Halts (Raises context) p := by
  refine obeys_bind.2 ⟨fun _ => hp, fun scan => obeys_bind.2 (obeys_ofExcept.2 ?_)⟩
  obtain ⟨rows, f | s⟩ := scan
  · exact raises_raised hp rfl
  · exact raises_then (raises_required hp rfl)

/-- What a listener is asked is none of the repository's. -/
theorem deliver_aside {mode : Mode} {row : Row} :
    (deliver mode row).Obeys (fun _ e => e.mayFail = false) (fun _ _ => True) p := by
  cases mode with
  | reference =>
    refine obeys_bind.2 (obeys_ofExcept.2 ?_)
    cases Wire.reference row.id row.sequence with
    | error f => trivial
    | ok o => exact ⟨rfl, fun _ => trivial⟩
  | messages =>
    refine obeys_bind.2 (obeys_ofExcept.2 ?_)
    cases Wire.decode row.data with
    | error f => trivial
    | ok m => exact ⟨rfl, fun _ => trivial⟩

theorem offerAll_aside {mode : Mode} {n : Nat} {rows : List Row} :
    (offerAll mode n rows).Obeys (fun _ e => e.mayFail = false) (fun _ _ => True) p := by
  induction rows generalizing n p with
  | nil => trivial
  | cons row rows ih =>
    refine obeys_bind.2 (obeys_mono ?_ deliver_aside)
    rintro p (f | _ | _) -
    · trivial
    · trivial
    · exact ih

theorem publish_voices {m : Message} : (publish d m).Obeys Halts
    (Voices ("Failed to add message " ++ m.identity.value)) [] := by
  refine voices_observed fun p hp => obeys_bind.2 (obeys_mono ?_ validateMessage_obeys)
  rintro _ (f | _) ⟨rfl, -⟩
  · exact voices_faultless hp
  refine voices_bind (voices_transacted hp fun p hp => ?_) fun _ _ => ⟨rfl, fun _ => trivial⟩
  refine obeys_bind.2 ⟨fun _ => hp, ?_⟩
  rintro (f | a)
  · exact raises_raised hp rfl
  · exact raises_then (raises_required hp rfl)

theorem acknowledge_voices {id : String} : (acknowledge d k id .standard).Obeys Halts
    (Voices ("Failed to store acknowledgment for: " ++ k.client ++ " on message " ++ id)) [] := by
  refine voices_observed fun p hp => voices_validate hp ?_
  refine voices_bind (voices_transacted hp fun p hp => ?_) fun _ _ => ⟨rfl, fun _ => trivial⟩
  refine obeys_bind.2 ⟨fun _ => hp, ?_⟩
  rintro (f | _ | w)
  · exact raises_raised hp rfl
  · exact raises_faultless (faultless_snoc hp rfl)
  have hp := faultless_snoc (x := ⟨.call (.resolve d id), .ok (some w)⟩) hp rfl
  refine obeys_bind.2 ⟨fun _ => hp, ?_⟩
  rintro (f | s)
  · exact raises_raised hp rfl
  · exact raises_then (raises_required hp rfl)

theorem subscribe_voices {x : Subscription} {retroactive : Bool} :
    (subscribe d x retroactive).Obeys Halts
      (Voices ("Failed to lookup subscription for info: " ++ x.key.client)) [] := by
  refine voices_observed fun p hp => voices_validate hp ?_
  dsimp only
  split
  · exact voices_faultless hp
  refine voices_bind (voices_transacted hp fun p hp => ?_) fun _ _ => ⟨rfl, fun _ => trivial⟩
  refine obeys_bind.2 ⟨fun _ => hp, ?_⟩
  rintro (f | s)
  · exact raises_raised hp rfl
  · exact obeys_require.2 (raises_required hp rfl)

theorem lookup_voices :
    (lookup d k).Obeys Halts (Voices ("Failed to lookup subscription for: " ++ k.client)) [] :=
  voices_observed fun _ hp => voices_validate hp <| voices_transacted hp fun _ hp =>
    ⟨fun _ => hp, fun _ => raises_found hp rfl⟩

theorem subscriptions_voices :
    (subscriptions d).Obeys Halts (Voices "Failed to lookup subscriptions") [] :=
  voices_observed fun _ hp => voices_transacted hp fun _ hp =>
    ⟨fun _ => hp, fun _ => raises_found hp rfl⟩

theorem messageCount_voices :
    (messageCount d k).Obeys Halts (Voices ("Failed to get Message Count: " ++ k.client)) [] := by
  refine voices_observed fun p hp => voices_validate hp ?_
  refine voices_bind (voices_transacted hp fun p hp => ?_) fun _ _ => ⟨rfl, fun _ => trivial⟩
  exact ⟨fun _ => hp, fun _ => raises_found hp rfl⟩

/-- A deletion evicts the cursor before it fails. -/
theorem unsubscribe_voices : (unsubscribe d k).Obeys Halts
    (Voices ("Failed to remove subscription for: " ++ k.client)) [] := by
  refine voices_observed fun p hp => voices_validate hp ?_
  refine obeys_bind.2 (obeys_attempt.2 (obeys_mono ?_ (voices_transacted hp fun p hp => ?_)))
  · intro p a ha
    refine obeys_bind.2 ⟨nofun, fun _ => ?_⟩
    exact voices_bind (obeys_ofExcept.2 (voices_aside rfl ha)) fun _ _ => ⟨rfl, fun _ => trivial⟩
  refine obeys_bind.2 ⟨fun _ => hp, ?_⟩
  rintro (f | s)
  · exact raises_raised hp rfl
  · exact obeys_require.2 (raises_required hp rfl)

theorem recoverAll_voices {mode : Mode} : (recoverAll d k mode).Obeys Halts
    (Voices ("Failed to recover subscription: " ++ k.client)) [] := by
  refine voices_observed fun p hp => voices_validate hp ?_
  refine voices_bind (voices_transacted hp fun _ => readAll_raises) fun rows p => ?_
  refine obeys_bind.2 (obeys_mono ?_ offerAll_aside)
  rintro p (f | n) -
  · trivial
  · exact ⟨rfl, fun _ => trivial⟩

theorem request_voices (hr : r.context? = some context) :
    (r.operation d).Obeys Halts (Voices context) [] := by
  cases r with
  | publish => cases hr; exact publish_voices
  | acknowledge k i kind =>
    cases kind with
    | standard => cases hr; exact acknowledge_voices
    | unmatched => cases hr
  | recoverAll => cases hr; exact recoverAll_voices
  | subscribe => cases hr; exact subscribe_voices
  | lookup => cases hr; exact lookup_voices
  | subscriptions => cases hr; exact subscriptions_voices
  | unsubscribe => cases hr; exact unsubscribe_voices
  | messageCount => cases hr; exact messageCount_voices
  | _ => cases hr

end

/-- Whatever an engine refuses in the middle of a call is the only thing that it refuses, and the
caller is told what was attempted and why. It is to start the transaction, to commit it, or to prepare
or step a statement of the call. That a lock is held by someone else has a code of its own if and only
if it is found out by stepping a statement for a call of the repository that reports. If it is found
out when the transaction is started or committed, when a statement is prepared, or by stepping one for
a call that only reads, it is an internal error. -/
theorem refusal_is_told {δ : Type} (E : Engine δ) (around : List Exchange → (e : Effect) → e.Reply)
    (d : String) (c : δ) {r : Request} {context : String} {i : Incident}
    (hr : r.context? = some context) (hi : i ∈ (r.voyage E around d c).2.incidents) :
    (r.voyage E around d c).2.incidents = [i] ∧
      (r.voyage E around d c).1 = .error (.store i.code (context ++ ": " ++ i.text)) ∧
      (∀ q, i.moment.query? = some q → r.Runs d q) ∧
      (i.refusal.isLock → (i.code = .busy ↔ i.moment.isCoded)) := by
  obtain ⟨haccounts, hvoices⟩ := @run_accounts δ _ E around ⟨⟨(c, []), none⟩, []⟩ d r {} _ _ _
    (Or.inl rfl) (request_voices hr) (operation_follows r)
  rcases haccounts with hnone | ⟨j, hj, hw, hq⟩
  · rw [Request.voyage, hnone] at hi
    cases hi
  · obtain rfl : i = j := by
      rw [Request.voyage, hj] at hi
      exact List.mem_singleton.1 hi
    obtain ⟨f, hf, hown⟩ := hvoices _ hw
    refine ⟨hj, ?_, hq, Repository.Embedded.code_busy⟩
    rw [Request.voyage, hf, hown Repository.Embedded.trouble_foreign,
      Repository.Embedded.trouble_failure]

/-- Surroundings where nothing is cached and no listener takes anything. -/
def idle (_ : List Exchange) : (e : Effect) → e.Reply
  | .begin | .commit => .ok ()
  | .call c => c.failed Repository.noTransaction
  | .acquire _ => ⟨0, none⟩
  | .peek _ => none
  | .startSpan .. => none
  | .hasCapacity | .offer _ => .ok false
  | .close | .keep .. | .release _ | .reset _ | .evict _ | .log _ | .setAttribute ..
  | .noteFailure .. | .endSpan _ | .countOperation .. | .countRecovered ..
  | .countScanFailure _ => ()

open Repository.Embedded (Connection Refusal)

/-- A connection to a database that another connection has locked. -/
def shutOut : Connection := { file := some [[0x64, 0x62]], lockedOut := true }

/-- A transaction that cannot be started is an internal error, also where a lock is why. -/
theorem locked_lookup_is_internal :
    ∃ i ∈ ((Request.lookup ⟨"A", none⟩).voyage Connection.engine idle "orders" shutOut).2.incidents,
      i.refusal.isLock ∧
      ((Request.lookup ⟨"A", none⟩).voyage Connection.engine idle "orders" shutOut).1 =
        .error (.store .internalError "Failed to lookup subscription for: A: database is locked") := by
  exact ⟨⟨.begin, ⟨5, "database is locked"⟩⟩, by decide +kernel, rfl, by rfl⟩

/-- An engine that finds a table locked when a subscriber is deleted. -/
def contended : Engine Connection where
  execute := Connection.engine.execute
  prepare := Connection.engine.prepare
  step
    | .delete .., c => (.refused ⟨262, "database table is locked"⟩, c)
    | q, c => Connection.engine.step q c

theorem contended_delete_is_busy :
    ((Request.unsubscribe ⟨"A", none⟩).voyage contended idle "orders" {}).2.incidents =
        [⟨.step (.delete "orders" ⟨"A", none⟩), ⟨262, "database table is locked"⟩⟩] ∧
      ((Request.unsubscribe ⟨"A", none⟩).voyage contended idle "orders" {}).1 =
        .error (.store .busy "Failed to remove subscription for: A: database table is locked") := by
  have hi : (⟨.step (.delete "orders" ⟨"A", none⟩), ⟨262, "database table is locked"⟩⟩ : Incident) ∈
      ((Request.unsubscribe ⟨"A", none⟩).voyage contended idle "orders" {}).2.incidents := by
    decide +kernel
  obtain ⟨hall, ha, -, -⟩ := refusal_is_told contended idle "orders" {} rfl hi
  exact ⟨hall, ha⟩

end DurableTopic.Store

import DurableTopic.Proofs.Records
import DurableTopic.Proofs.Tidy
/-! What a call asks for, by all that it was answered before, and what its transaction sees by then. -/
namespace DurableTopic

namespace Repository

/-- A trouble that an answer reports, if it does, or the failure in place of an answer. -/
def Trouble.of? {α : Type} (reports : α → Option Trouble) : Except Failure α → Option Trouble
  | .ok a => reports a
  | .error f => some (.raise f)

/-- A status that is no success. -/
def Trouble.ofStatus? (s : Status) : Option Trouble := if s.isOk then none else some (.report s)

/-- Why a repository did not do a call, if it did not. -/
def Call.trouble? : (c : Call) → c.Reply → Option Trouble
  | .append _, a => Trouble.of? (Trouble.ofStatus? ·.status) a
  | .persist .., a | .put .., a | .delete .., a => Trouble.of? Trouble.ofStatus? a
  | .scanAfter .., a | .scanAll .., a => Trouble.of? Trouble.ofStatus? a.outcome
  | .resolve .., a | .load .., a | .count .., a | .get .., a | .list _, a =>
    Trouble.of? (fun _ => none) a

end Repository
namespace Store

open Cursor (Thread)
open Repository (Call Ledger Trouble)

/-- What is found for a request is what the transaction sees. -/
def Host.Finds (h : Host) : (e : Effect) → e.Reply → Prop
  | .call c, a => ∀ l, h.stand = .active l → l.Finds h.spell c a
  | _, _ => True

/-- Whether something is only told to the log or the telemetry. -/
def Effect.isTold : Effect → Bool
  | .log _ | .startSpan .. | .setAttribute .. | .noteFailure .. | .endSpan _ | .countOperation ..
  | .countRecovered .. | .countScanFailure _ => true
  | _ => false

/-- Whether something is asked of the repository, or kept in a cursor. -/
def Effect.isStored : Effect → Bool
  | .begin | .call _ | .commit | .close | .keep .. => true
  | _ => false

/-- Why the repository did not do what it was asked for. -/
def Exchange.trouble? : Exchange → Option Trouble
  | ⟨.begin, a⟩ | ⟨.commit, a⟩ => Trouble.of? (fun _ => none) a
  | ⟨.call c, a⟩ => c.trouble? a
  | _ => none

/-- An operation asks only for what is allowed after the answers before, and where it ends a condition
holds. -/
def Operation.Obeys {α : Type} (P : List Exchange → Effect → Prop) (Q : List Exchange → α → Prop) :
    Operation α → List Exchange → Prop
  | .done a, p => Q p a
  | .perform e next, p => P p e ∧ ∀ a, (next a).Obeys P Q (p ++ [⟨e, a⟩])

/-- The same for an operation that may fail. -/
def Op.Obeys {α : Type} (P : List Exchange → Effect → Prop)
    (Q : List Exchange → Except Failure α → Prop) (x : Op α) (p : List Exchange) : Prop :=
  Operation.Obeys P Q x.run p

/-- An operation asks for nothing of a kind. -/
def Op.Avoids {α : Type} (K : Effect → Bool) (x : Op α) : Prop :=
  ∀ p, x.Obeys (fun _ e => K e = false) (fun _ _ => True) p

section

variable {α β : Type} {P : List Exchange → Effect → Prop} {p : List Exchange}

theorem Operation.obeys_bind {Q : List Exchange → β → Prop} {x : Operation α}
    {f : α → Operation β} :
    (x.bind f).Obeys P Q p ↔ x.Obeys P (fun p a => (f a).Obeys P Q p) p := by
  induction x generalizing p with
  | done a => rfl
  | perform e next ih => simp only [bind, Obeys, ih]

theorem Operation.obeys_mono {Q Q' : List Exchange → α → Prop} {x : Operation α}
    (hq : ∀ p a, Q p a → Q' p a) (h : x.Obeys P Q p) : x.Obeys P Q' p := by
  induction x generalizing p with
  | done a => exact hq _ _ h
  | perform e next ih => exact ⟨h.1, fun a => ih a (h.2 a)⟩

theorem Operation.obeys_imp {P' : List Exchange → Effect → Prop} {Q : List Exchange → α → Prop}
    {x : Operation α} (hP : ∀ p e, P p e → P' p e) (h : x.Obeys P Q p) : x.Obeys P' Q p := by
  induction x generalizing p with
  | done a => exact h
  | perform e next ih => exact ⟨hP _ _ h.1, fun a => ih a (h.2 a)⟩

theorem Operation.obeys_all {Q : List Exchange → α → Prop} {x : Operation α}
    (hp : ∀ p e, P p e) (hq : ∀ p a, Q p a) : x.Obeys P Q p := by
  induction x generalizing p with
  | done a => exact hq _ _
  | perform e next ih => exact ⟨hp _ _, fun a => ih a⟩

namespace Op

variable {Q : List Exchange → Except Failure α → Prop} {x : Op α}

theorem obeys_bind {Q : List Exchange → Except Failure β → Prop} {f : α → Op β} :
    (x >>= f).Obeys P Q p ↔ x.Obeys P (fun p a =>
      match a with
      | .ok a => (f a).Obeys P Q p
      | .error e => Q p (.error e)) p := by
  refine Operation.obeys_bind.trans ?_
  constructor <;> refine Operation.obeys_mono fun p a h => ?_ <;> cases a <;> exact h

theorem obeys_mono {Q' : List Exchange → Except Failure α → Prop}
    (hq : ∀ p a, Q p a → Q' p a) (h : x.Obeys P Q p) : x.Obeys P Q' p := Operation.obeys_mono hq h

theorem obeys_attempt {Q : List Exchange → Except Failure (Except Failure α) → Prop} :
    (attempt x).Obeys P Q p ↔ x.Obeys P (fun p a => Q p (.ok a)) p :=
  Operation.obeys_bind.trans Iff.rfl

theorem obeys_inContext {context : String} :
    (inContext context x).Obeys P Q p ↔
      x.Obeys P (fun p a => Q p (a.mapError (Failure.inContext context))) p :=
  Operation.obeys_bind

theorem obeys_ofExcept {a : Except Failure α} : (ofExcept a).Obeys P Q p ↔ Q p a := by
  cases a <;> exact Iff.rfl

theorem obeys_require {s : Status} {context : String}
    {Q : List Exchange → Except Failure Unit → Prop} :
    (require s context).Obeys P Q p ↔ Q p (s.require context) := obeys_ofExcept

theorem obeys_validate {k : SubscriberKey} {Q : List Exchange → Except Failure Unit → Prop}
    (he : k.client.isEmpty → Q p (.error (.invalidArgument "client id must not be empty")))
    (ho : Q p (.ok ())) : (validate k).Obeys P Q p := by
  unfold validate
  split
  · exact he ‹_›
  · exact ho

/-- What is told to the log and the telemetry changes nothing. -/
theorem obeys_observed {operation destination : String} {key : Option SubscriberKey}
    (hP : ∀ p e, e.isTold → P p e) (hQ : ∀ p x a, x.effect.isTold → Q p a → Q (p ++ [x]) a)
    (h : ∀ span, x.Obeys P Q (p ++ [⟨.startSpan operation destination key, span⟩])) :
    (observed operation destination key x).Obeys P Q p := by
  refine obeys_bind.2 ⟨hP _ _ rfl, fun span => ?_⟩
  refine obeys_bind.2 (obeys_attempt.2 (obeys_mono (fun p a hp => ?_) (h span)))
  have htold : ∀ p e (a : Effect.Reply e), e.isTold → Q p ‹_› → Q (p ++ [⟨e, a⟩]) ‹_› :=
    fun p e a he hp => hQ p ⟨e, a⟩ _ he hp
  cases a with
  | error f =>
    refine obeys_bind.2 ?_
    unfold report
    split
    · exact ⟨hP _ _ rfl, fun _ => ⟨hP _ _ rfl, fun _ => ⟨hP _ _ rfl, fun _ => ⟨hP _ _ rfl, fun _ =>
        htold _ _ _ rfl (htold _ _ _ rfl (htold _ _ _ rfl (htold _ _ _ rfl hp)))⟩⟩⟩⟩
    · exact ⟨hP _ _ rfl, fun _ => htold _ _ _ rfl hp⟩
  | ok a =>
    exact ⟨hP _ _ rfl, fun _ => ⟨hP _ _ rfl, fun _ => htold _ _ _ rfl (htold _ _ _ rfl hp)⟩⟩

/-- A transaction is committed behind its body, and closed whatever happens. It gives what its body
gives where it is committed. -/
theorem obeys_inTransaction {context : String} (hP : ∀ p, P p .begin ∧ P p .close)
    (hQ : ∀ p y a, Q p a → Q (p ++ [⟨.close, y⟩]) a)
    (hb : ∀ f, Q (p ++ [⟨.begin, .error f⟩]) (.error (f.inContext context)))
    (h : x.Obeys P (fun p a =>
      match a with
      | .ok a => P p .commit ∧ Q (p ++ [⟨.commit, .ok ()⟩]) (.ok a) ∧
        ∀ f, Q (p ++ [⟨.commit, .error f⟩]) (.error (f.inContext context))
      | .error f => Q p (.error (f.inContext context))) (p ++ [⟨.begin, .ok ()⟩])) :
    (inContext context (inTransaction x)).Obeys P Q p := by
  refine obeys_inContext.2 (obeys_bind.2 ⟨(hP _).1, ?_⟩)
  rintro (f | ⟨⟨⟩⟩)
  · exact hb f
  refine obeys_bind.2 (obeys_attempt.2 (obeys_bind.2 (obeys_mono ?_ h)))
  rintro p (f | a) hp
  · exact obeys_bind.2 ⟨(hP _).2, fun _ => hQ _ _ _ hp⟩
  · obtain ⟨hc, hok, herr⟩ := hp
    refine obeys_bind.2 ⟨hc, ?_⟩
    rintro (f | ⟨⟨⟩⟩)
    · exact obeys_bind.2 ⟨(hP _).2, fun _ => hQ _ _ _ (herr f)⟩
    · exact obeys_bind.2 ⟨(hP _).2, fun _ => hQ _ _ _ hok⟩

/-- A transaction, by what holds whatever it gives. -/
theorem obeys_transacted {R : List Exchange → Prop} {context : String}
    (hP : ∀ p, P p .begin ∧ P p .close) (hR : ∀ p x, R p → R (p ++ [x]))
    (hb : ∀ f, R (p ++ [⟨.begin, .error f⟩]))
    (h : x.Obeys P (fun p a =>
      match a with
      | .ok _ => P p .commit ∧ ∀ c, R (p ++ [⟨.commit, c⟩])
      | .error _ => R p) (p ++ [⟨.begin, .ok ()⟩])) :
    (inContext context (inTransaction x)).Obeys P (fun p _ => R p) p := by
  refine obeys_inTransaction hP (fun _ _ _ => hR _ _) hb (obeys_mono ?_ h)
  rintro p (f | a) hp
  · exact hp
  · exact ⟨hp.1, hp.2 _, fun _ => hp.2 _⟩

variable {K : Effect → Bool}

theorem avoids_ask {e : Effect} (h : K e = false) : (ask e).Avoids K := fun _ =>
  ⟨h, fun _ => trivial⟩

theorem avoids_ofExcept {a : Except Failure α} : (ofExcept a).Avoids K := fun _ =>
  obeys_ofExcept.2 trivial

theorem avoids_validate {k : SubscriberKey} : (validate k).Avoids K := fun _ =>
  obeys_validate (fun _ => trivial) trivial

theorem avoids_bind {f : α → Op β} (hx : x.Avoids K) (hf : ∀ a, (f a).Avoids K) :
    (x >>= f).Avoids K := by
  refine fun p => obeys_bind.2 (obeys_mono ?_ (hx p))
  rintro p (f | a) -
  · trivial
  · exact hf a p

theorem avoids_attempt (h : x.Avoids K) : (attempt x).Avoids K := fun p => obeys_attempt.2 (h p)

theorem avoids_transacted {context : String} (hK : ∀ e, e.isStored → K e = false)
    (h : x.Avoids K) : (inContext context (inTransaction x)).Avoids K := by
  refine fun p => obeys_transacted (R := fun _ => True) (fun _ => ⟨hK _ rfl, hK _ rfl⟩)
    (fun _ _ _ => trivial) (fun _ => trivial) (obeys_mono ?_ (h _))
  rintro p (f | a) -
  · trivial
  · exact ⟨hK _ rfl, fun _ => trivial⟩

end Op
end

/-- The answers to an acknowledgement that is ready to commit. -/
def ackHistory (d : String) (k : SubscriberKey) (i : String) (span : Telemetry.Span) (w : Watermark)
    (s : Status) : List Exchange :=
  [⟨.startSpan "acknowledge" d (some k), span⟩, ⟨.begin, .ok ()⟩,
    ⟨.call (.resolve d i), .ok (some w)⟩, ⟨.call (.persist d k w), .ok s⟩]

/-- What a call may ask for after some answers, as far as a message is stored or acknowledged. -/
def Request.Allows (d : String) : Request → List Exchange → Effect → Prop
  | publish _, _, .call c => c.Named
  | acknowledge k i .standard, p, .commit => ∃ span w s, s.isOk ∧ p = ackHistory d k i span w s
  | acknowledge _ _ .unmatched, _, .commit => False
  | _, _, _ => True

/-- How an acknowledgement ends: it was committed, or the repository did not do what it was asked
for, or there is no such message, or the subscriber is refused. -/
def Request.Ends (d : String) : (r : Request) → List Exchange → Except Failure r.Result → Prop
  | acknowledge k i .standard, p, _ =>
    ⟨.commit, .ok ()⟩ ∈ p ∨ (∃ x ∈ p, x.trouble?.isSome) ∨
      ⟨.call (.resolve d i), .ok none⟩ ∈ p ∨ k.client.isEmpty
  | _, _, _ => True

open Op

section

variable {d i : String} {k : SubscriberKey} {r : Request} {p : List Exchange} {e : Effect}

theorem allows_told (h : e.isTold) : r.Allows d p e := by
  unfold Request.Allows
  split
  · cases h
  · cases h
  · cases h
  · trivial

theorem ends_snoc {x : Exchange} {a b : Except Failure r.Result} (h : r.Ends d p a) :
    r.Ends d (p ++ [x]) b := by
  cases r with
  | acknowledge k i kind =>
    cases kind with
    | standard =>
      rcases h with h | ⟨y, hy, hc⟩ | h | h
      · exact Or.inl (List.mem_append_left _ h)
      · exact Or.inr (Or.inl ⟨y, List.mem_append_left _ hy, hc⟩)
      · exact Or.inr (Or.inr (Or.inl (List.mem_append_left _ h)))
      · exact Or.inr (Or.inr (Or.inr h))
    | unmatched => trivial
  | _ => trivial

/-- A message that is let through has an id. -/
theorem validateMessage_obeys {m : Message} {P : List Exchange → Effect → Prop} :
    (validateMessage d m).Obeys P
      (fun q a => q = p ∧ ∀ v, a = .ok v → m.identity.value ≠ "") p := by
  unfold validateMessage
  split <;> split
  · exact ⟨rfl, nofun⟩
  · exact ⟨rfl, nofun⟩
  · exact ⟨rfl, nofun⟩
  · rename_i hid
    exact ⟨rfl, fun _ _ => by simpa [String.isEmpty_iff] using hid⟩

/-- A call that publishes stores its message in one transaction, if the message has an id. -/
theorem publish_obeys_of {m : Message} {P : List Exchange → Effect → Prop}
    (htold : ∀ p e, e.isTold → P p e) (htx : ∀ p, P p .begin ∧ P p .commit ∧ P p .close)
    (happend : ∀ p, m.identity.value ≠ "" → P p (.call (.append (rowOf d m)))) :
    (publish d m).Obeys P (fun _ _ => True) p := by
  refine obeys_observed htold (fun _ _ _ _ => id) fun span => ?_
  refine obeys_bind.2 (obeys_mono ?_ validateMessage_obeys)
  rintro p (f | _) ⟨-, hid⟩
  · trivial
  refine obeys_bind.2 (obeys_mono (Q := fun _ _ => True) ?_ ?_)
  · rintro p (f | n) -
    · trivial
    · exact ⟨htold _ _ rfl, fun _ => trivial⟩
  refine obeys_transacted (R := fun _ => True) (fun p => ⟨(htx p).1, (htx p).2.2⟩)
    (fun _ _ _ => trivial) (fun _ => trivial) (obeys_bind.2 ⟨happend _ (hid _ rfl), ?_⟩)
  rintro (f | a)
  · trivial
  · refine obeys_bind.2 (obeys_require.2 ?_)
    cases a.status.require _ with
    | error f => trivial
    | ok _ => exact ⟨(htx _).2.1, fun _ => trivial⟩

theorem publish_obeys {m : Message} :
    (publish d m).Obeys (Request.Allows d (.publish m)) (Request.Ends d (.publish m)) [] :=
  publish_obeys_of (fun _ _ => allows_told) (fun _ => ⟨trivial, trivial, trivial⟩) fun _ hid => hid

theorem acknowledge_obeys :
    (acknowledge d k i .standard).Obeys (Request.Allows d (.acknowledge k i .standard))
      (Request.Ends d (.acknowledge k i .standard)) [] := by
  refine obeys_observed (fun _ _ => allows_told) (fun _ _ _ _ => ends_snoc) fun span => ?_
  refine obeys_bind.2 (obeys_validate (fun hk => Or.inr (Or.inr (Or.inr hk))) ?_)
  have hfail : ∀ p x, x.trouble?.isSome →
      Request.Ends d (.acknowledge k i .standard) (p ++ [x]) (.ok ()) := fun p x hx =>
    Or.inr (Or.inl ⟨x, by simp, hx⟩)
  refine obeys_bind.2 (obeys_mono ?_ (obeys_transacted
    (R := fun p => Request.Ends d (.acknowledge k i .standard) p (.ok ()))
    (fun _ => ⟨trivial, trivial⟩) (fun _ _ => ends_snoc) (fun f => hfail _ _ rfl) ?_))
  · rintro p (f | w) hp
    · exact hp
    · exact ⟨trivial, fun _ => ends_snoc (r := .acknowledge k i .standard) (b := .ok ()) hp⟩
  refine obeys_bind.2 ⟨trivial, ?_⟩
  rintro (f | _ | w)
  · exact hfail _ _ rfl
  · exact Or.inr (Or.inr (Or.inl (by simp)))
  refine obeys_bind.2 ⟨trivial, ?_⟩
  rintro (f | s)
  · exact hfail _ _ rfl
  refine obeys_bind.2 (obeys_require.2 ?_)
  by_cases hs : s.isOk
  · rw [Status.require, if_pos hs]
    refine ⟨⟨span, w, s, hs, rfl⟩, ?_⟩
    rintro (f | ⟨⟨⟩⟩)
    · exact hfail _ _ rfl
    · exact Or.inl (by simp)
  · rw [Status.require, if_neg hs]
    exact hfail _ _ (by simp [Exchange.trouble?, Call.trouble?, Trouble.of?, Trouble.ofStatus?, hs])

/-- Every call keeps to what it is allowed. -/
theorem operation_obeys : (r.operation d).Obeys (r.Allows d) (r.Ends d) [] := by
  cases r with
  | publish m => exact publish_obeys
  | acknowledge k i kind =>
    cases kind with
    | standard => exact acknowledge_obeys
    | unmatched => exact ⟨trivial, fun _ => trivial⟩
  | _ => exact Operation.obeys_all (fun _ _ => trivial) fun _ _ => trivial

end

/-- What was answered since a transaction began leads from what was committed to what it sees. -/
inductive Replays (spell : String → String) (base : Ledger) : List Exchange → Ledger → Prop where
  | begin {p : List Exchange} {a : Effect.begin.Reply} : Replays spell base (p ++ [⟨.begin, a⟩]) base
  | call {p : List Exchange} {l l' : Ledger} {c : Call} {a : c.Reply} (h : Replays spell base p l)
      (ha : l.Answers spell c a l') (hf : l.Finds spell c a) :
      Replays spell base (p ++ [⟨.call c, a⟩]) l'
  | other {p : List Exchange} {l : Ledger} {e : Effect} {a : e.Reply} (h : Replays spell base p l)
      (hb : e ≠ .begin) (hc : ∀ c, e ≠ .call c) : Replays spell base (p ++ [⟨e, a⟩]) l

section

variable {spell : String → String} {base l : Ledger} {p : List Exchange}

theorem replays_begin {a : Effect.begin.Reply} (h : Replays spell base (p ++ [⟨.begin, a⟩]) l) :
    l = base := by
  generalize hq : p ++ [⟨.begin, a⟩] = q at h
  cases h with
  | begin => rfl
  | call => simp at hq
  | other _ hb =>
    obtain ⟨-, hx⟩ := List.append_inj' hq rfl
    cases List.singleton_inj.1 hx
    exact absurd rfl hb

theorem replays_call {c : Call} {a : c.Reply} (h : Replays spell base (p ++ [⟨.call c, a⟩]) l) :
    ∃ l', Replays spell base p l' ∧ l'.Answers spell c a l ∧ l'.Finds spell c a := by
  generalize hq : p ++ [⟨.call c, a⟩] = q at h
  cases h with
  | begin => simp at hq
  | call h ha hf =>
    obtain ⟨rfl, hx⟩ := List.append_inj' hq rfl
    cases List.singleton_inj.1 hx
    exact ⟨_, h, ha, hf⟩
  | other _ _ hc =>
    obtain ⟨-, hx⟩ := List.append_inj' hq rfl
    cases List.singleton_inj.1 hx
    exact absurd rfl (hc c)

/-- An acknowledgement that is ready to commit has moved the position to its message. -/
theorem replays_acked {d i : String} {k : SubscriberKey} {span : Telemetry.Span} {w : Watermark}
    {s : Status} (hs : s.isOk) (h : Replays spell base (ackHistory d k i span w s) l) :
    base.position spell i = some w ∧ l = base.persist spell k w := by
  obtain ⟨l₁, h₁, ha₁, -⟩ := replays_call (p := (ackHistory d k i span w s).take 3) h
  obtain ⟨l₀, h₀, ha₀, hf₀⟩ := replays_call (p := (ackHistory d k i span w s).take 2) h₁
  obtain rfl : l₀ = base := replays_begin (p := (ackHistory d k i span w s).take 1) h₀
  obtain rfl : l₁ = l₀ := ha₀
  exact ⟨(hf₀ _ rfl).symm, Ledger.wrote_ok ha₁ hs⟩

end

/-- What holds of a call in progress by all that it was answered. -/
structure Frame.Recorded (h : Host) (f : Frame) : Prop where
  obeys : f.rest.Obeys (f.request.Allows h.destination) (f.request.Ends h.destination) f.past
  replays : f.stage.phase = .active → ∃ l, h.stand = .active l ∧ Replays h.spell h.ledger f.past l

/-- A tidy repository, and calls in progress that kept to what they are allowed. -/
structure System.Recorded (s : System) : Prop where
  tidy : s.host.backend.repository.Tidy s.host.destination
  frames : ∀ t, ∀ f ∈ s.stack t, f.Recorded s.host

theorem Request.named {d : String} {r : Request} {p : List Exchange} {c : Call}
    (hm : r.mayCall d c) (ha : r.Allows d p (.call c)) : c.Named := by
  cases c with
  | append row =>
    cases r <;> simp only [mayCall] at hm
    exact ha
  | _ => trivial

section

variable {t u : Thread} {s s' : System} {h' : Host} {f g : Frame} {n : Nat} {r : Request}
  {past : List Exchange} {e : Effect} {a : e.Reply}
  {next : e.Reply → Operation (Except Failure r.Result)} {below : List Frame}

/-- What a call that is about to commit was answered leads to what its transaction sees. -/
theorem replays_commit {next : Effect.commit.Reply → Operation (Except Failure r.Result)}
    (hs : s.Sound) (hrec : s.Recorded)
    (hst : s.stack t = ⟨n, r, past, .perform .commit next⟩ :: below) :
    ∃ l, s.host.stand = .active l ∧ Replays s.host.spell s.host.ledger past l ∧
      Ledger.Evolves s.host.spell (r.mayCall s.host.destination) s.host.ledger l ∧
      r.Allows s.host.destination past .commit := by
  have hmem : Frame.mk n r past (.perform .commit next) ∈ s.stack t := by
    rw [hst]; exact List.mem_cons_self
  have hf := hs.frames t _ hmem
  have hp := hf.follows.1.1
  obtain ⟨l, hl, hev⟩ := hf.active hp
  obtain ⟨l', hl', hrep⟩ := (hrec.frames t _ hmem).replays hp
  obtain rfl : l' = l := by simpa [hl'] using hl
  exact ⟨l', hl, hrep, hev, (hrec.frames t _ hmem).obeys.1⟩

/-- The repository stays tidy, and what it finds for a call is what there is. -/
theorem tidy_ask (hs : s.Sound) (hrec : s.Recorded)
    (hst : s.stack t = ⟨n, r, past, .perform e next⟩ :: below) (hr : Replies t s.host e a h') :
    h'.backend.repository.Tidy s.host.destination ∧ s.host.Finds e a := by
  have hmem : Frame.mk n r past (.perform e next) ∈ s.stack t := by
    rw [hst]; exact List.mem_cons_self
  have hf := hs.frames t _ hmem
  have hperm := hf.follows.1
  have hallow := (hrec.frames t _ hmem).obeys.1
  have ht := hrec.tidy
  have hb := replies_affects hr
  generalize h'.backend = b' at hb ⊢
  cases hb with
  | begin hn => exact ⟨(Repository.Faulty.begin_tidied hs.backend ht hn).1, trivial⟩
  | call c =>
    obtain ⟨l, hl, -⟩ := hf.active hperm.1
    have hd := Request.mayCall_destination hperm.2.1
    have hn := Request.named hperm.2.1 hallow
    exact ⟨(Repository.Faulty.perform_tidy hs.backend ht hl hd hn).1,
      fun l hl => Repository.Faulty.perform_finds hs.backend ht hl hd hn⟩
  | commit => exact ⟨(Repository.commit_tidy ht).1, trivial⟩
  | commitFails f => exact ⟨ht, trivial⟩
  | close => exact ⟨(Repository.close_tidy ht).1, trivial⟩
  | other _ hcall =>
    refine ⟨ht, ?_⟩
    cases e with
    | call c => exact absurd rfl (hcall c)
    | _ => trivial

/-- What a call that is in a transaction sees is its own affair. -/
theorem ask_apart (hs : s.Sound) (hst : s.stack t = ⟨n, r, past, .perform e next⟩ :: below)
    (hr : Replies t s.host e a h') (hgu : u = t ∧ g ∈ below ∨ u ≠ t ∧ g ∈ s.stack u)
    (hopen : g.stage.phase ≠ .closed) :
    h'.stand = s.host.stand ∧ h'.ledger = s.host.ledger := by
  obtain ⟨hd, -, -, hg⟩ := ask_granted hs hst hr
  have hmem : Frame.mk n r past (.perform e next) ∈ s.stack t := by
    rw [hst]; exact List.mem_cons_self
  have hgs := hs.frames u g (mem_of_other hst hgu)
  rcases hgu with ⟨rfl, hb⟩ | ⟨hne, hgm⟩
  · exact absurd (listens_of_atListener hgs (hs.waits u _ _ hst g hb)).phase hopen
  · by_cases hp : (Frame.mk n r past (.perform e next)).stage.phase = .closed
    · exact granted_outside hp (hs.frames t _ hmem).follows.1 hg hd (busy_of_open hgs hopen)
    · exact absurd (hs.apart u t _ _ hgm hmem hopen hp) hne

theorem replays_next (hf : (Frame.mk n r past (.perform e next)).Sound t s.host)
    (hrep : (Frame.mk n r past (.perform e next)).stage.phase = .active →
      ∃ l, s.host.stand = .active l ∧ Replays s.host.spell s.host.ledger past l)
    (hg : Granted t s.host h' e a) (hd : h'.destination = s.host.destination)
    (hsp : h'.spell = s.host.spell) (hfind : s.host.Finds e a)
    (hp : (Frame.mk n r (past ++ [⟨e, a⟩]) (next a)).stage.phase = .active) :
    ∃ l, h'.stand = .active l ∧ Replays h'.spell h'.ledger (past ++ [⟨e, a⟩]) l := by
  have hperm := hf.follows.1
  rw [stage_snoc] at hp
  rw [hsp]
  change (Frame.mk n r past (.perform e next)).stage.phase = .active → _ at hrep
  have hkept : h'.backend = s.host.backend →
      (Frame.mk n r past (.perform e next)).stage.phase = .active → e ≠ .begin →
      (∀ c, e ≠ .call c) → ∃ l, h'.stand = .active l ∧
        Replays s.host.spell h'.ledger (past ++ [⟨e, a⟩]) l := by
    intro hb ha he hc
    obtain ⟨hl, hstand⟩ := ledger_of_backend hb hd
    obtain ⟨l, hst, hr⟩ := hrep ha
    exact ⟨l, hstand ▸ hst, hl ▸ hr.other he hc⟩
  cases e with
  | begin =>
    obtain ⟨-, hl, -, hact⟩ := hg
    rcases a with f | x
    · have : (Frame.mk n r past (.perform .begin next)).stage.phase = .closed := hperm
      have hp : (Frame.mk n r past (.perform .begin next)).stage.phase = .active := hp
      simp_all
    · exact ⟨_, hact x rfl, hl ▸ .begin⟩
  | call c =>
    obtain ⟨l, hst, hr⟩ := hrep hperm.1
    obtain ⟨-, hl, l₁, l', hst₁, hst', ha⟩ := hg
    obtain rfl : l = l₁ := by simpa [hst] using hst₁
    exact ⟨l', hst', hl ▸ hr.call ha (hfind l hst)⟩
  | commit =>
    obtain ⟨l, hst, hr⟩ := hrep hperm.1
    obtain ⟨-, l₁, hst₁, ⟨rfl, -⟩ | ⟨⟨f, rfl⟩, hl, hst'⟩⟩ := hg
    · cases hp
    · obtain rfl : l = l₁ := by simpa [hst] using hst₁
      exact ⟨l, hst', hl ▸ hr.other (by simp) (by simp)⟩
  | close => cases hp
  | _ =>
    rw [Stage.next_phase (by simp) (by simp) (by simp)] at hp
    exact hkept hg.1 hp (by simp) (by simp)

theorem recorded_ask (hs : s.Sound) (hrec : s.Recorded)
    (hst : s.stack t = ⟨n, r, past, .perform e next⟩ :: below) (hr : Replies t s.host e a h') :
    System.Recorded
      { s.setStack t (⟨n, r, past ++ [⟨e, a⟩], next a⟩ :: below) with host := h' } := by
  obtain ⟨hd, hsp, -, hg⟩ := ask_granted hs hst hr
  obtain ⟨ht, hfind⟩ := tidy_ask hs hrec hst hr
  have hmem : Frame.mk n r past (.perform e next) ∈ s.stack t := by
    rw [hst]; exact List.mem_cons_self
  refine ⟨by rw [← hd] at ht; exact ht, fun u g hgu => ?_⟩
  rcases mem_setStack hgu with ⟨rfl, rfl⟩ | hother
  · have hf := hrec.frames u _ hmem
    exact ⟨by rw [hd]; exact hf.obeys.2 a,
      replays_next (hs.frames u _ hmem) hf.replays hg hd hsp hfind⟩
  · have hgr := hrec.frames u g (mem_of_other hst hother)
    refine ⟨by rw [hd]; exact hgr.obeys, fun hp => ?_⟩
    obtain ⟨hstand, hl⟩ := ask_apart hs hst hr hother (by simp [hp])
    rw [hstand, hl, hsp]
    exact hgr.replays hp

theorem recorded_step {ev : Event} (hs : s.Sound) (hrec : s.Recorded) (h : Step s ev s') :
    s'.Recorded := by
  cases h with
  | start r hl =>
    refine ⟨hrec.tidy, fun u g hg => ?_⟩
    rcases mem_setStack hg with ⟨rfl, rfl⟩ | ⟨rfl, hg⟩ | ⟨-, hg⟩
    · exact ⟨operation_obeys, by rintro ⟨⟩⟩
    · exact hrec.frames _ _ hg
    · exact hrec.frames _ _ hg
  | ask hst hr => exact recorded_ask hs hrec hst hr
  | finish hst =>
    exact ⟨hrec.tidy, fun u g hg => hrec.frames u g (mem_of_finished hst hg)⟩
  | disturb hf => exact ⟨hrec.tidy, fun u g hg => ⟨(hrec.frames u g hg).obeys,
      (hrec.frames u g hg).replays⟩⟩

theorem recorded_run {tr : List Event} (hs : s.Sound) (hrec : s.Recorded) (h : Run Step s tr s') :
    s'.Recorded := by
  induction h with
  | nil => exact hrec
  | snoc h he ih => exact recorded_step (sound_run hs h) ih he

/-- A store that was just opened on a tidy repository. -/
theorem recorded_opened (h : s.Opened)
    (ht : s.host.backend.repository.Tidy s.host.destination) : s.Recorded :=
  ⟨ht, by simp [h.stack]⟩

end

end Store
end DurableTopic

import DurableTopic.Proofs.Cursors
import DurableTopic.Proofs.Repository
import DurableTopic.Store.Acknowledge
import DurableTopic.Store.Host
import DurableTopic.Store.Publish
import DurableTopic.Store.Recovery
import DurableTopic.Store.Registry
/-! Threads that use one store. A thread works through one call at a time, and a listener that is
asked may make further calls before it answers. Threads may interleave wherever a call asks for
something. -/
namespace DurableTopic.Store

open Cursor (Thread)
open Repository (Ledger Stand)

namespace Host

/-- What is committed for the destination that is served. -/
def ledger (h : Host) : Ledger := h.backend.repository.committed h.destination

def stand (h : Host) : Stand := h.backend.repository.stand h.destination

def spell (h : Host) : String → String := h.backend.repository.spell

end Host

/-- A call on a store. -/
inductive Request where
  | publish (m : Message)
  | acknowledge (key : SubscriberKey) (id : String) (kind : AckKind)
  | recoverNext (key : SubscriberKey) (limit : Nat) (mode : Mode)
  | recoverAll (key : SubscriberKey) (mode : Mode)
  | resetBatching (key : SubscriberKey)
  | subscribe (info : Subscription) (retroactive : Bool)
  | lookup (key : SubscriberKey)
  | subscriptions
  | unsubscribe (key : SubscriberKey)
  | messageCount (key : SubscriberKey)
  | cachedWatermark (key : SubscriberKey)
  deriving Repr, DecidableEq

namespace Request

def Result : Request → Type
  | publish _ | messageCount _ => Int
  | acknowledge .. | resetBatching _ | subscribe .. | unsubscribe _ => Unit
  | recoverNext .. | recoverAll .. => Nat
  | lookup _ => Option Subscription
  | subscriptions => List Subscription
  | cachedWatermark _ => Option Watermark

/-- What a call does on the destination that is served. -/
def operation (d : String) : (r : Request) → Op r.Result
  | publish m => Store.publish d m
  | acknowledge k id kind => Store.acknowledge d k id kind
  | recoverNext k limit mode => Store.recoverNext d k limit mode
  | recoverAll k mode => Store.recoverAll d k mode
  | resetBatching k => Store.resetBatching k
  | subscribe info retroactive => Store.subscribe d info retroactive
  | lookup k => Store.lookup d k
  | subscriptions => Store.subscriptions d
  | unsubscribe k => Store.unsubscribe d k
  | messageCount k => Store.messageCount d k
  | cachedWatermark k => Store.cachedWatermark k

/-- The subscriber that a call names. -/
def key? : Request → Option SubscriberKey
  | publish _ | subscriptions => none
  | subscribe info _ => some info.key
  | acknowledge k .. | recoverNext k .. | recoverAll k _ | resetBatching k | lookup k
  | unsubscribe k | messageCount k | cachedWatermark k => some k

/-- A call that hands messages of a subscriber to a listener. -/
def redelivers (k : SubscriberKey) : Request → Bool
  | recoverNext j .. | recoverAll j _ => j = k
  | _ => false

/-- A call that is a pass under the cursor of a subscriber. -/
def batches (k : SubscriberKey) : Request → Bool
  | recoverNext j .. => j = k
  | _ => false

/-- A call that deletes a subscriber. -/
def deletes : Request → Bool
  | unsubscribe _ => true
  | _ => false

/-- A call that gives up the cursor of a subscriber. -/
def forgets (k : SubscriberKey) : Request → Bool
  | resetBatching j | unsubscribe j => j = k
  | _ => false

end Request

/-- Whether a listener is asked. -/
def Effect.isCallback : Effect → Bool
  | .hasCapacity | .offer _ => true
  | _ => false

/-- Something that was asked, and the answer. -/
structure Exchange where
  effect : Effect
  reply : effect.Reply

/-- A call in progress: what was answered, and what is left to do. -/
structure Frame where
  number : Nat
  request : Request
  past : List Exchange
  rest : Operation (Except Failure request.Result)

/-- Whether a call waits for its listener, who may then make calls itself. -/
def Frame.atListener (f : Frame) : Bool :=
  match f.rest with
  | .perform e _ => e.isCallback
  | .done _ => false

/-- A store and the threads that use it. The first of the calls of a thread is the innermost. -/
structure System where
  host : Host
  stack : Thread → List Frame := fun _ => []
  count : Nat := 0

inductive Event where
  | start (t : Thread) (number : Nat) (request : Request)
  | ask (t : Thread) (number : Nat) (request : Request) (x : Exchange)
  | finish (t : Thread) (number : Nat)
  | disturb

/-- What may be answered to a thread. A listener may answer anything, a commit may fail and then
does nothing, and whoever starts a transaction waits until there is none. -/
inductive Replies (t : Thread) (h : Host) : (e : Effect) → e.Reply → Host → Prop where
  | host {e : Effect} {a : e.Reply} {h' : Host} (hc : e.isCallback = false)
      (hb : e = .begin → h.backend.repository.hasTransaction = false)
      (ha : h.answer t e = some (a, h')) : Replies t h e a h'
  | commitFails (f : Failure) (hf : f.isException) : Replies t h .commit (.error f) h
  | hasCapacity (a : Except Failure Bool) : Replies t h .hasCapacity a h
  | offer (o : Offer) (a : Except Failure Bool) : Replies t h (.offer o) a h

def System.setStack (s : System) (t : Thread) (fs : List Frame) : System :=
  { s with stack := fun u => if u = t then fs else s.stack u }

/-- One thing happens: a thread makes a call, is answered or is done with a call, or the faults of
the repository change. -/
inductive Step : System → Event → System → Prop where
  | start {s : System} {t : Thread} (r : Request) (h : ∀ f ∈ (s.stack t).head?, f.atListener) :
      Step s (.start t s.count r)
        { s.setStack t (⟨s.count, r, [], r.operation s.host.destination⟩ :: s.stack t) with
          count := s.count + 1 }
  | ask {s : System} {t : Thread} {n : Nat} {r : Request} {past : List Exchange} {e : Effect}
      {next : e.Reply → Operation (Except Failure r.Result)} {below : List Frame} {a : e.Reply}
      {host : Host} (h : s.stack t = ⟨n, r, past, .perform e next⟩ :: below)
      (hr : Replies t s.host e a host) :
      Step s (.ask t n r ⟨e, a⟩)
        { s.setStack t (⟨n, r, past ++ [⟨e, a⟩], next a⟩ :: below) with host }
  | finish {s : System} {t : Thread} {n : Nat} {r : Request} {past : List Exchange}
      {a : Except Failure r.Result} {below : List Frame}
      (h : s.stack t = ⟨n, r, past, .done a⟩ :: below) :
      Step s (.finish t n) (s.setStack t below)
  | disturb {s : System} {faults : Repository.Faults} (h : faults.Honest) :
      Step s .disturb { s with host.backend.faults := faults }

/-- Who moves. -/
def Event.thread? : Event → Option Thread
  | .start t .. | .ask t .. | .finish t _ => some t
  | .disturb => none

/-- The call that is made. -/
def Event.call? : Event → Option Request
  | .start _ _ r => some r
  | _ => none

/-- The calls that are made. -/
def calls (tr : List Event) : List Request := tr.filterMap Event.call?

/-- No other thread has calls in progress. -/
def System.Alone (s : System) (t : Thread) : Prop := ∀ u, u ≠ t → s.stack u = []

/-- One thing happens while no other thread has calls in progress, so that calls are made one after
the other, or by listeners. -/
structure SerialStep (s : System) (e : Event) (s' : System) : Prop where
  step : Step s e s'
  alone : ∀ t, e.thread? = some t → s.Alone t

/-- Things that happen one after the other, from left to right. -/
inductive Run (step : System → Event → System → Prop) : System → List Event → System → Prop where
  | nil (s : System) : Run step s [] s
  | snoc {s s' s'' : System} {tr : List Event} {e : Event} (h : Run step s tr s')
      (he : step s' e s'') : Run step s (tr ++ [e]) s''

/-- A store that was just opened: nothing is going on and no cursor is known. -/
structure System.Opened (s : System) : Prop where
  repository : s.host.backend.Sound s.host.destination
  closed : s.host.backend.repository.hasTransaction = false
  cursors : s.host.cursors = {}
  stack : ∀ t, s.stack t = []

def System.Reachable (s : System) : Prop := ∃ s₀ tr, s₀.Opened ∧ Run Step s₀ tr s

/-- What is offered stands for a stored message. -/
def Offer.IsOf (o : Offer) (r : Row) : Prop :=
  o = .reference ⟨r.id, Int64.ofInt r.sequence⟩ ∨
    ∃ m, Wire.decode r.data = .ok m ∧ o = .message (m.stamped r.sequence)

/-- What a listener accepts from a pass of a subscriber. -/
def Event.accepts (k : SubscriberKey) : Event → Option Offer
  | .ask _ _ r ⟨.offer o, .ok true⟩ => if r.batches k then some o else none
  | _ => none

/-- The position that a pass of a subscriber keeps. -/
def Event.keeps (k : SubscriberKey) : Event → Option Watermark
  | .ask _ _ r ⟨.keep _ w, _⟩ => if r.batches k then some w else none
  | _ => none

/-- A listener throws an object that is no exception. -/
def Exchange.unwinds : Exchange → Bool
  | ⟨.hasCapacity, .error f⟩ | ⟨.offer _, .error f⟩ => !f.isException
  | _ => false

/-- The listener of a pass of a subscriber throws an object that is no exception. -/
def Event.unwinds (k : SubscriberKey) : Event → Bool
  | .ask _ _ r x => x.unwinds && r.batches k
  | _ => false

/-- The passes of a subscriber neither accept nor keep anything, and none is unwound. -/
structure Event.Idle (k : SubscriberKey) (e : Event) : Prop where
  accepts : e.accepts k = none
  keeps : e.keeps k = none
  unwinds : e.unwinds k = false

/-- What the listeners of the passes of a subscriber accepted, in order. -/
def accepted (k : SubscriberKey) (tr : List Event) : List Offer := tr.filterMap (·.accepts k)

/-- The position that the first pass of a subscriber loaded and kept. -/
def loaded (k : SubscriberKey) (tr : List Event) : Option Watermark := tr.findSome? (·.keeps k)

/-- A pass of a subscriber was told this position when it asked for the persisted one. -/
def Loads (k : SubscriberKey) (w : Watermark) (tr : List Event) : Prop :=
  ∃ t n r d, r.batches k ∧ Event.ask t n r ⟨.call (.load d k), .ok w⟩ ∈ tr

variable {step : System → Event → System → Prop} {s s' s'' : System} {tr tr' : List Event}

theorem run_trans (h : Run step s tr s') (h' : Run step s' tr' s'') :
    Run step s (tr ++ tr') s'' := by
  induction h' with
  | nil => simpa using h
  | snoc _ he ih => rw [← List.append_assoc]; exact ih.snoc he

theorem run_mono {step' : System → Event → System → Prop}
    (hm : ∀ s e s', step s e s' → step' s e s') (h : Run step s tr s') : Run step' s tr s' := by
  induction h with
  | nil => exact .nil _
  | snoc _ he ih => exact ih.snoc (hm _ _ _ he)

theorem run_nil (h : Run step s [] s') : s' = s := by
  generalize htr : [] = l at h
  cases h with
  | nil => rfl
  | snoc => simp at htr

theorem run_snoc {e : Event} (h : Run step s (tr ++ [e]) s'') :
    ∃ s', Run step s tr s' ∧ step s' e s'' := by
  generalize htr : tr ++ [e] = l at h
  cases h with
  | nil => simp at htr
  | snoc h he =>
    obtain ⟨rfl, rfl⟩ := List.append_inj' htr rfl |>.imp id List.singleton_inj.1
    exact ⟨_, h, he⟩

theorem run_append (h : Run step s (tr ++ tr') s'') :
    ∃ s', Run step s tr s' ∧ Run step s' tr' s'' := by
  generalize hl : tr ++ tr' = l at h
  induction h generalizing tr' with
  | nil =>
    obtain ⟨rfl, rfl⟩ := List.append_eq_nil_iff.1 hl
    exact ⟨s, .nil s, .nil s⟩
  | @snoc s₁ s₂ l e h he ih =>
    rcases List.eq_nil_or_concat tr' with rfl | ⟨init, e', rfl⟩
    · rw [List.append_nil] at hl
      exact ⟨s₂, hl ▸ h.snoc he, .nil s₂⟩
    · rw [List.concat_eq_append, ← List.append_assoc] at hl
      obtain ⟨hl, hlast⟩ := List.append_inj' hl rfl
      obtain ⟨s', hleft, hright⟩ := ih hl
      rw [List.concat_eq_append, List.singleton_inj.1 hlast]
      exact ⟨s', hleft, hright.snoc he⟩

theorem mem_top {t : Thread} {f : Frame} {below : List Frame} (hst : s.stack t = f :: below) :
    f ∈ s.stack t := hst ▸ List.mem_cons_self

theorem mem_setStack {t u : Thread} {f g : Frame} {below : List Frame}
    (hg : g ∈ (s.setStack t (f :: below)).stack u) :
    (u = t ∧ g = f) ∨ (u = t ∧ g ∈ below ∨ u ≠ t ∧ g ∈ s.stack u) := by
  simp only [System.setStack] at hg
  split at hg
  · rename_i hu
    rcases List.mem_cons.1 hg with rfl | hg
    · exact Or.inl ⟨hu, rfl⟩
    · exact Or.inr (Or.inl ⟨hu, hg⟩)
  · exact Or.inr (Or.inr ⟨‹_›, hg⟩)

theorem mem_of_finished {t u : Thread} {f g : Frame} {below : List Frame}
    (hst : s.stack t = f :: below) (hg : g ∈ (s.setStack t below).stack u) : g ∈ s.stack u := by
  simp only [System.setStack] at hg
  split at hg
  · rename_i hu
    rw [hu, hst]
    exact List.mem_cons_of_mem _ hg
  · exact hg

/-- A call in progress was in progress before, or is made now. -/
theorem request_step {t : Thread} {e : Event} {g : Frame} (h : Step s e s')
    (hg : g ∈ s'.stack t) :
    (∃ f ∈ s.stack t, f.number = g.number ∧ f.request = g.request) ∨
      e.call? = some g.request := by
  cases h with
  | start r =>
    rcases mem_setStack hg with ⟨rfl, rfl⟩ | ⟨rfl, hg⟩ | ⟨-, hg⟩
    · exact Or.inr rfl
    · exact Or.inl ⟨g, hg, rfl, rfl⟩
    · exact Or.inl ⟨g, hg, rfl, rfl⟩
  | @ask _ n r past e next _ _ _ hst =>
    rcases mem_setStack hg with ⟨rfl, rfl⟩ | ⟨rfl, hb⟩ | ⟨-, hg⟩
    · exact Or.inl ⟨⟨n, r, past, .perform e next⟩, by rw [hst]; exact List.mem_cons_self, rfl, rfl⟩
    · exact Or.inl ⟨g, by rw [hst]; exact List.mem_cons_of_mem _ hb, rfl, rfl⟩
    · exact Or.inl ⟨g, hg, rfl, rfl⟩
  | finish hst =>
    simp only [System.setStack] at hg
    split at hg
    · rename_i hu
      exact Or.inl ⟨g, by rw [hu, hst]; exact List.mem_cons_of_mem _ hg, rfl, rfl⟩
    · exact Or.inl ⟨g, hg, rfl, rfl⟩
  | disturb => exact Or.inl ⟨g, hg, rfl, rfl⟩

/-- A call in progress stays as it is, or is done, or is answered now. -/
theorem frame_step {t : Thread} {e : Event} {f : Frame} (h : Step s e s')
    (hf : f ∈ s.stack t) :
    f ∈ s'.stack t ∨ (∃ a, f.rest = .done a) ∨
      ∃ x next, f.rest = .perform x.effect next ∧ e = .ask t f.number f.request x ∧
        ⟨f.number, f.request, f.past ++ [x], next x.reply⟩ ∈ s'.stack t := by
  cases h with
  | @start u r =>
    refine Or.inl ?_
    simp only [System.setStack]
    split
    · rename_i hu
      exact List.mem_cons_of_mem _ (hu ▸ hf)
    · exact hf
  | @ask u n r past e next below a _ hst =>
    by_cases hu : t = u
    · subst hu
      rw [hst] at hf
      rcases List.mem_cons.1 hf with rfl | hb
      · exact Or.inr (Or.inr ⟨⟨e, a⟩, next, rfl, rfl, by simp [System.setStack]⟩)
      · exact Or.inl (by simp [System.setStack, hb])
    · exact Or.inl (by simpa [System.setStack, hu] using hf)
  | @finish u n r past a below hst =>
    by_cases hu : t = u
    · subst hu
      rw [hst] at hf
      rcases List.mem_cons.1 hf with rfl | hb
      · exact Or.inr (Or.inl ⟨a, rfl⟩)
      · exact Or.inl (by simpa [System.setStack] using hb)
    · exact Or.inl (by simpa [System.setStack, hu] using hf)
  | disturb => exact Or.inl hf

theorem mem_calls_left {r : Request} (h : r ∈ calls tr) : r ∈ calls (tr ++ tr') := by
  rw [calls, List.filterMap_append]
  exact List.mem_append_left _ h

theorem mem_calls_right {r : Request} (h : r ∈ calls tr') : r ∈ calls (tr ++ tr') := by
  rw [calls, List.filterMap_append]
  exact List.mem_append_right _ h

theorem mem_calls_last {r : Request} {e : Event} (h : e.call? = some r) :
    r ∈ calls (tr ++ [e]) := mem_calls_right (by simp [calls, h])

/-- What holds of the calls that are made holds of the calls in progress. -/
theorem requests_run {P : Request → Prop} (h : Run Step s tr s')
    (hs : ∀ t, ∀ f ∈ s.stack t, P f.request) (hcalls : ∀ r ∈ calls tr, P r) :
    ∀ t, ∀ f ∈ s'.stack t, P f.request := by
  induction h with
  | nil => exact hs
  | snoc _ he ih =>
    intro t g hg
    rcases request_step he hg with ⟨f, hf, -, hr⟩ | hnew
    · exact hr ▸ ih (fun r hm => hcalls r (mem_calls_left hm)) t f hf
    · exact hcalls _ (mem_calls_last hnew)

theorem alone_step {t : Thread} {e : Event} (h : Step s e s') (ha : s.Alone t)
    (he : e.thread? = none ∨ e.thread? = some t) : s'.Alone t := by
  intro u hu
  cases h with
  | disturb => exact ha u hu
  | _ =>
    obtain rfl := Option.some.inj (he.resolve_left (by simp [Event.thread?]))
    simpa [System.setStack, hu] using ha u hu

/-- What one thread does while no other has calls in progress is done one after the other. -/
theorem serial_run {t : Thread} (h : Run Step s tr s') (ha : s.Alone t)
    (he : ∀ e ∈ tr, e.thread? = none ∨ e.thread? = some t) :
    Run SerialStep s tr s' ∧ s'.Alone t := by
  induction h with
  | nil => exact ⟨.nil _, ha⟩
  | snoc _ hstep ih =>
    obtain ⟨hrun, ha'⟩ := ih fun e hm => he e (List.mem_append_left _ hm)
    have hlast := he _ (List.mem_append_right _ (List.mem_singleton.2 rfl))
    refine ⟨hrun.snoc ⟨hstep, fun u hu => ?_⟩, alone_step hstep ha' hlast⟩
    obtain rfl : u = t := by simpa [hu] using hlast
    exact ha'

variable {k : SubscriberKey} {e : Event}

theorem accepted_snoc : accepted k (tr ++ [e]) = accepted k tr ++ (e.accepts k).toList := by
  simp only [accepted, List.filterMap_append]
  cases h : e.accepts k <;> simp [h]

theorem mem_accepted {o : Offer} (h : o ∈ accepted k tr) :
    ∃ t n r, r.batches k ∧ .ask t n r ⟨.offer o, .ok true⟩ ∈ tr := by
  obtain ⟨e, he, ho⟩ := List.mem_filterMap.1 h
  unfold Event.accepts at ho
  split at ho
  · split at ho
    · cases ho
      exact ⟨_, _, _, ‹_›, he⟩
    · cases ho
  · cases ho

theorem loaded_snoc : loaded k (tr ++ [e]) = (loaded k tr).or (e.keeps k) := by
  simp [loaded, List.findSome?_append]

theorem loads_snoc {w : Watermark} (h : Loads k w tr) : Loads k w (tr ++ [e]) := by
  obtain ⟨t, n, r, d, hr, hm⟩ := h
  exact ⟨t, n, r, d, hr, List.mem_append_left _ hm⟩

theorem takes_nothing (h : e.unwinds k) : e.accepts k = none ∧ e.keeps k = none := by
  unfold Event.unwinds at h
  split at h
  · rename_i t n r x
    have hx : x.unwinds := (Bool.and_eq_true_iff.1 h).1
    unfold Exchange.unwinds at hx
    split at hx
    · exact ⟨rfl, rfl⟩
    · exact ⟨rfl, rfl⟩
    · cases hx
  · cases h

theorem accepts_of_keeps {w : Watermark} (h : e.keeps k = some w) : e.accepts k = none := by
  unfold Event.keeps at h
  split at h
  · rfl
  · cases h

/-- Only passes of a subscriber accept, keep or are unwound. -/
theorem idle_other {t : Thread} {n : Nat} {r : Request} {x : Exchange}
    (hb : r.batches k = false) : (Event.ask t n r x).Idle k := by
  refine ⟨?_, ?_, ?_⟩
  · unfold Event.accepts
    split
    · rename_i h
      cases h
      simp [hb]
    · rfl
  · unfold Event.keeps
    split
    · rename_i h
      cases h
      simp [hb]
    · rfl
  · simp [Event.unwinds, hb]

theorem Request.redelivers_of_batches {r : Request} (h : r.batches k) : r.redelivers k := by
  cases r <;> simp_all [batches, redelivers]

theorem Request.batches_unique {r : Request} {j : SubscriberKey} (hj : r.batches j)
    (hk : r.batches k) : j = k := by
  cases r <;> simp_all [batches]

end DurableTopic.Store

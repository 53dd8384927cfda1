import DurableTopic.Proofs.Histories
import DurableTopic.Proofs.Moves
import DurableTopic.Proofs.Play
/-! One request to the repository goes wrong in the middle of a call, at any place and in any way. What
the call did is undone, and the failure is reported in one way. -/
namespace DurableTopic
namespace Repository

/-- The code under which a trouble is reported. A failure that is raised has none of its own. -/
def Trouble.code : Trouble → ErrorCode
  | report s => s.code
  | raise _ => .internalError

def Trouble.text : Trouble → String
  | report s => s.message
  | raise f => f.message

/-- Whether a failure is raised of a kind that the store raises itself. -/
def Trouble.isOwn : Trouble → Bool
  | report _ => false
  | raise f => f.isOwn

/-- Whether handlers see a trouble. -/
def Trouble.isException : Trouble → Bool
  | report _ => true
  | raise f => f.isException

/-- What a caller is told of a trouble. -/
def Trouble.failure (context : String) (w : Trouble) : Failure :=
  .store w.code (context ++ ": " ++ w.text)

/-- What goes wrong with one request: how many others come before it, what was done for it by then,
and how it fails. -/
structure Mishap where
  behind : Nat := 0
  done : List Call := []
  trouble : Trouble

/-- No transaction is open, and none was left behind. -/
def AtRest : Repository → Prop
  | memory _ t => t = none
  | embedded c t => t = none ∧ c.saved = none ∧ c.writing = false

instance : (r : Repository) → Decidable r.AtRest
  | memory _ t => inferInstanceAs (Decidable (t = none))
  | embedded c t => inferInstanceAs (Decidable (t = none ∧ c.saved = none ∧ c.writing = false))

/-- A transaction is open that a rollback would undo. -/
def Within (base : Repository) : Repository → Prop
  | memory ts (some _) => base = memory ts none
  | embedded c (some h) => h.finished = false ∧ ∃ t, c.saved = some t ∧
    base = embedded { c with tables := t, saved := none, writing := false } none
  | _ => False

/-- Nobody else keeps transactions from being started. -/
def Unhindered : Repository → Prop
  | memory .. => True
  | embedded c _ => c.readOnly = false ∧ c.lockedOut = false

instance : (r : Repository) → Decidable r.Unhindered
  | memory .. => inferInstanceAs (Decidable True)
  | embedded c _ => inferInstanceAs (Decidable (c.readOnly = false ∧ c.lockedOut = false))

variable {r base : Repository} {b : Faulty} {f : Failure}

theorem begin_unhindered (h : r.AtRest) (hu : r.Unhindered) : r.begin.1 = .ok () := by
  cases r with
  | memory => rfl
  | embedded c t =>
    obtain ⟨-, hs, -⟩ := h
    simp [begin, Embedded.begin, Embedded.Connection.begin, Embedded.mayWrite_ok ⟨hu.1, hu.2⟩, hs]

theorem begin_within (h : r.AtRest) :
    r.begin.1 = .ok () ∧ r.Within r.begin.2 ∨ (∃ f, r.begin.1 = .error f) ∧ r.begin.2 = r := by
  cases r with
  | memory ts t =>
    obtain rfl : t = none := h
    exact Or.inl ⟨rfl, rfl⟩
  | embedded c t =>
    obtain ⟨rfl, hs, hw⟩ := h
    cases hm : c.mayWrite with
    | error s =>
      refine Or.inr ⟨⟨.runtime s.message, ?_⟩, ?_⟩ <;>
        simp [begin, Embedded.begin, Embedded.Connection.begin, hm]
    | ok _ =>
      have hb : begin (embedded c none) =
          (.ok (), embedded { c with saved := some c.tables, writing := true } (some {})) := by
        simp [begin, Embedded.begin, Embedded.Connection.begin, hm, hs]
      rw [hb]
      refine Or.inl ⟨rfl, rfl, c.tables, rfl, ?_⟩
      rw [← hs, ← hw]

theorem perform_within {c : Call} (h : base.Within r) : base.Within (r.perform c).2 := by
  cases r with
  | memory ts t =>
    cases t with
    | none => exact h.elim
    | some x => exact h
  | embedded b t =>
    cases t with
    | none => exact h.elim
    | some x =>
      obtain ⟨hf, t, hs, hb⟩ := h
      obtain ⟨t', w, hk⟩ := Embedded.perform_kept b c
      simp only [perform, hk]
      exact ⟨hf, t, hs, hb⟩

theorem performs_within {cs : List Call} (h : base.Within r) :
    base.Within (cs.foldl (fun r c => (r.perform c).2) r) := by
  induction cs generalizing r with
  | nil => exact h
  | cons c cs ih => exact ih (perform_within h)

theorem commit_within (h : base.Within r) :
    r.commit.1 = .ok () ∨ (∃ f, r.commit.1 = .error f) ∧ base.Within r.commit.2 := by
  cases r with
  | memory ts t =>
    cases t with
    | none => exact h.elim
    | some x =>
      simp only [commit, Memory.Transaction.commit]
      cases x.phase with
      | active => exact Or.inl rfl
      | committed | rolledBack => exact Or.inr ⟨⟨_, rfl⟩, h⟩
  | embedded b t =>
    cases t with
    | none => exact h.elim
    | some x =>
      obtain ⟨-, t, hs, -⟩ := h
      simp [commit, Embedded.commit, Embedded.Connection.commit, hs]

/-- What is not committed is undone, and nothing is to be said about it. -/
theorem close_within (h : base.Within r) : r.close = ([], base) := by
  cases r with
  | memory ts t =>
    cases t with
    | none => exact h.elim
    | some x =>
      obtain rfl : base = memory ts none := h
      rfl
  | embedded b t =>
    cases t with
    | none => exact h.elim
    | some x =>
      obtain ⟨hf, t, hs, rfl⟩ := h
      simp [close, Embedded.close, Embedded.Connection.rollback, hf, hs]

namespace Faulty

theorem begin_within (h : b.repository.AtRest) :
    b.begin.1 = .ok () ∧ b.repository.Within b.begin.2.repository ∨
    (∃ f, b.begin.1 = .error f) ∧ b.begin.2.repository = b.repository := by
  unfold begin
  split
  · rename_i heq
    have hr : (b.noting .begin "begin").2.repository = b.repository := rfl
    rw [heq] at hr
    exact Or.inr ⟨⟨_, rfl⟩, hr⟩
  · rename_i heq
    have hr : (b.noting .begin "begin").2.repository = b.repository := rfl
    rw [heq] at hr
    simp only at hr ⊢
    rw [hr]
    exact Repository.begin_within h

theorem forward_within {c : Call} (h : base.Within b.repository) :
    base.Within (b.forward c).2.repository := Repository.perform_within h

theorem perform_within {c : Call} (h : base.Within b.repository) :
    base.Within (b.perform c).2.repository := by
  unfold perform
  cases c with
  | scanAfter | scanAll => exact forward_within (b := (b.noting _ _).2) h
  | _ =>
    simp only [unlessHit]
    split
    · exact h
    · exact forward_within (b := (b.noting _ _).2) h

end Faulty
end Repository
namespace Store

open Cursor (Thread)
open Repository (Mishap Trouble)

/-- A request that the repository may refuse. -/
def Effect.mayFail : Effect → Bool
  | .begin | .call _ | .commit => true
  | _ => false

/-- How a request goes wrong by a mishap, if it can go wrong so. A commit that fails commits
nothing. -/
def Host.stumble (h : Host) (m : Mishap) : (e : Effect) → Option (e.Reply × Host)
  | .begin | .commit =>
    match m.trouble with
    | .raise f => some (.error f, h)
    | .report _ => none
  | .call c => (c.refused m.trouble).map fun a => (a, { h with
      backend.repository := m.done.foldl (fun r c => (r.perform c).2) h.backend.repository })
  | _ => none

/-- A call in progress on a host, and the mishap that is still to come. -/
structure Trial where
  host : Host
  past : List Exchange := []
  mishap : Option Mishap := none

namespace Trial

/-- The mishap that hits a request, and the one that is left. -/
def due (s : Trial) (e : Effect) : Option Mishap × Option Mishap :=
  match e.mayFail, s.mishap with
  | true, some ⟨0, done, trouble⟩ => (some ⟨0, done, trouble⟩, none)
  | true, some ⟨n + 1, done, trouble⟩ => (none, some ⟨n, done, trouble⟩)
  | _, left => (none, left)

/-- Answers a request of a thread, unless it goes wrong. -/
def reply (t : Thread) (e : Effect) : StateT Trial Option e.Reply := fun s =>
  (((s.due e).1.bind (s.host.stumble · e)).or (s.host.answer t e)).map fun (a, host) =>
    (a, { host, past := s.past ++ [⟨e, a⟩], mishap := (s.due e).2 })

end Trial

/-- Makes a call on a host, where perhaps a mishap happens. -/
def Request.trial (r : Request) (t : Thread) (h : Host) (m : Option Mishap) :
    Option (Except Failure r.Result × Trial) :=
  (Operation.run (Trial.reply t) (r.operation h.destination).run).run { host := h, mishap := m }

/-- The line that is told to the log. -/
def Exchange.line? : Exchange → Option Log.Entry
  | ⟨.log e, _⟩ => some e
  | _ => none

/-- The subscriber whose cursor is evicted. -/
def Exchange.evicted? : Exchange → Option SubscriberKey
  | ⟨.evict k, _⟩ => some k
  | _ => none

/-- What a call asks of the cache of cursors, if it is no pass: a deletion evicts once. -/
def Request.Tries (r : Request) (p : List Exchange) : Effect → Prop
  | .acquire _ | .keep .. | .release _ | .reset _ | .peek _ | .hasCapacity | .offer _ => False
  | .evict k => r = .unsubscribe k ∧ p.filterMap Exchange.evicted? = []
  | _ => True

/-- What holds of the repository where a call stands that has not committed. -/
def Stage.Undone (base : Repository) (s : Stage) (r : Repository) : Prop :=
  if s.phase = .closed then r = base else base.Within r

/-- What a call has done to its host. -/
structure Trial.Fits (t : Thread) (h : Host) (s : Trial) : Prop where
  cursors : s.past.filterMap Exchange.evicted? = [] ∧ s.host.cursors = h.cursors ∨
    ∃ k a, s.past.filterMap Exchange.evicted? = [k] ∧
      h.cursors.call t (.evict k) = some (a, s.host.cursors)
  logger : ⟨.commit, .ok ()⟩ ∉ s.past →
    s.host.logger = (s.past.filterMap Exchange.line?).foldl Log.Logger.log h.logger
  undone : ⟨.commit, .ok ()⟩ ∉ s.past →
    (s.past.foldl Stage.next {}).Undone h.backend.repository s.host.backend.repository

section

variable {t : Thread} {h h' : Host} {s : Trial} {e : Effect} {a : e.Reply} {r : Request} {d : String}
  {left : Option Mishap}

/-- One more answer, of what is no eviction. -/
theorem fits_snoc (hf : s.Fits t h) (he : (Exchange.mk e a).evicted? = none)
    (hc : h'.cursors = s.host.cursors)
    (hl : ⟨.commit, .ok ()⟩ ∉ s.past → (Exchange.mk e a) ≠ ⟨.commit, .ok ()⟩ →
      h'.logger = (Exchange.mk e a).line?.elim s.host.logger s.host.logger.log)
    (hu : ⟨.commit, .ok ()⟩ ∉ s.past → (Exchange.mk e a) ≠ ⟨.commit, .ok ()⟩ →
      ((s.past.foldl Stage.next {}).next ⟨e, a⟩).Undone h.backend.repository
        h'.backend.repository) :
    Trial.Fits t h ⟨h', s.past ++ [⟨e, a⟩], left⟩ := by
  have hparts : (⟨.commit, .ok ()⟩ : Exchange) ∉ s.past ++ [⟨e, a⟩] →
      ⟨.commit, .ok ()⟩ ∉ s.past ∧ (Exchange.mk e a) ≠ ⟨.commit, .ok ()⟩ := by
    intro hm
    simpa [eq_comm] using hm
  refine ⟨?_, fun hm => ?_, fun hm => ?_⟩
  · simp only [List.filterMap_append, List.filterMap_cons, he, List.filterMap_nil, List.append_nil, hc]
    exact hf.cursors
  · obtain ⟨hm, hx⟩ := hparts hm
    simp only [hl hm hx, List.filterMap_append, List.foldl_append, ← hf.logger hm]
    cases hx : (Exchange.mk e a).line? <;> simp [hx]
  · obtain ⟨hm, hx⟩ := hparts hm
    simp only [List.foldl_append]
    exact hu hm hx

/-- What goes wrong undoes nothing, and whatever was done for it can still be undone. -/
theorem stumble_fits {m : Mishap} (hf : s.Fits t h)
    (hp : (s.past.foldl Stage.next {}).Permits d r e) (hs : s.host.stumble m e = some (a, h')) :
    Trial.Fits t h ⟨h', s.past ++ [⟨e, a⟩], left⟩ := by
  cases e with
  | begin =>
    simp only [Host.stumble] at hs
    split at hs <;> cases hs
    exact fits_snoc hf rfl rfl (fun _ _ => rfl) fun hm _ => hf.undone hm
  | commit =>
    simp only [Host.stumble] at hs
    split at hs <;> cases hs
    exact fits_snoc hf rfl rfl (fun _ _ => rfl) fun hm _ => hf.undone hm
  | call c =>
    obtain ⟨a, -, hs⟩ := Option.map_eq_some_iff.1 hs
    cases hs
    refine fits_snoc hf rfl rfl (fun _ _ => rfl) fun hm _ => ?_
    have hphase : (s.past.foldl Stage.next {}).phase = .active := hp.1
    have hu := hf.undone hm
    rw [Stage.Undone, if_neg (by rw [hphase]; nofun)] at hu
    rw [Stage.Undone, Stage.next_phase (by simp) (by simp) (by simp), if_neg (by rw [hphase]; nofun)]
    exact Repository.performs_within hu
  | _ => cases hs

/-- A host answers all that a call asks for that is no pass. -/
theorem answer_fits (hrest : h.backend.repository.AtRest)
    (hk : ∀ k, r = .unsubscribe k → (h.cursors.call t (.evict k)).isSome) (hf : s.Fits t h)
    (hp : (s.past.foldl Stage.next {}).Permits d r e) (ht : r.Tries s.past e) :
    ∃ a h', s.host.answer t e = some (a, h') ∧
      ∀ left, Trial.Fits t h ⟨h', s.past ++ [⟨e, a⟩], left⟩ := by
  have hkept : e.mayFail = false → e ≠ .close → ∀ (a : e.Reply) (host : Host),
      host.backend = s.host.backend → ⟨.commit, .ok ()⟩ ∉ s.past →
      ((s.past.foldl Stage.next {}).next ⟨e, a⟩).Undone h.backend.repository
        host.backend.repository := by
    intro he hne a host hb hm
    have hphase : ((s.past.foldl Stage.next {}).next ⟨e, a⟩).phase =
        (s.past.foldl Stage.next {}).phase :=
      Stage.next_phase (by rintro rfl; cases he) (by rintro rfl; cases he) hne
    rw [Stage.Undone, hphase, hb]
    exact hf.undone hm
  cases e with
  | begin =>
    refine ⟨s.host.begin.1, s.host.begin.2, rfl, fun left =>
      fits_snoc hf rfl rfl (fun _ _ => rfl) fun hm _ => ?_⟩
    have hu := hf.undone hm
    have hphase : (s.past.foldl Stage.next {}).phase = .closed := hp
    rw [Stage.Undone, if_pos hphase] at hu
    rcases Repository.Faulty.begin_within (b := s.host.backend) (hu ▸ hrest) with
      ⟨ho, hw⟩ | ⟨⟨f, ho⟩, hsame⟩
    · have ho : s.host.begin.1 = .ok () := ho
      rw [ho, ← hu]
      exact hw
    · have ho : s.host.begin.1 = .error f := ho
      rw [ho, Stage.Undone, if_pos (by exact hphase), ← hu]
      exact hsame
  | call c =>
    refine ⟨_, _, rfl, fun left => fits_snoc hf rfl rfl (fun _ _ => rfl) fun hm _ => ?_⟩
    have hphase : (s.past.foldl Stage.next {}).phase = .active := hp.1
    have hu := hf.undone hm
    rw [Stage.Undone, if_neg (by rw [hphase]; nofun)] at hu
    rw [Stage.Undone, Stage.next_phase (by simp) (by simp) (by simp), if_neg (by rw [hphase]; nofun)]
    exact Repository.Faulty.perform_within hu
  | commit =>
    refine ⟨s.host.commit.1, s.host.commit.2, rfl, fun left =>
      fits_snoc hf rfl rfl (fun _ _ => rfl) fun hm hne => ?_⟩
    have hphase : (s.past.foldl Stage.next {}).phase = .active := hp.1
    have hu := hf.undone hm
    rw [Stage.Undone, if_neg (by rw [hphase]; nofun)] at hu
    rcases Repository.commit_within hu with ho | ⟨⟨f, ho⟩, hw⟩
    · have ho : s.host.commit.1 = .ok () := ho
      exact absurd (congrArg _ ho) hne
    · have ho : s.host.commit.1 = .error f := ho
      rw [ho, Stage.Undone, if_neg (by simp [Stage.next, hphase])]
      exact hw
  | close =>
    have hphase : (s.past.foldl Stage.next {}).phase ≠ .closed := hp
    have hclose : ⟨.commit, .ok ()⟩ ∉ s.past →
        s.host.backend.repository.close = ([], h.backend.repository) := fun hm => by
      have hu := hf.undone hm
      rw [Stage.Undone, if_neg hphase] at hu
      exact Repository.close_within hu
    refine ⟨_, _, rfl, fun left => fits_snoc hf rfl rfl (fun hm _ => ?_) fun hm _ => ?_⟩
    · simp [Host.close, Host.log, Repository.Faulty.close, hclose hm, Exchange.line?]
    · simp [Host.close, Host.log, Repository.Faulty.close, hclose hm, Stage.Undone, Stage.next]
  | evict k =>
    obtain ⟨rfl, hnone⟩ := ht
    obtain ⟨⟨a, c⟩, hc⟩ := Option.isSome_iff_exists.1 (hk k rfl)
    have hcur : s.host.cursors = h.cursors := by
      rcases hf.cursors with ⟨-, hcur⟩ | ⟨j, -, hj, -⟩
      · exact hcur
      · rw [hnone] at hj
        cases hj
    refine ⟨(), { s.host with cursors := c }, by simp [Host.answer, Host.onCursors, hcur, hc],
      fun left => ⟨Or.inr ⟨k, a, ?_, hc⟩, fun hm => ?_, fun hm => ?_⟩⟩
    · simp [hnone, Exchange.evicted?]
    · simp only [List.filterMap_append, List.filterMap_cons, Exchange.line?, List.filterMap_nil,
        List.append_nil]
      exact hf.logger (by simpa using hm)
    · simpa using hkept rfl (by simp) () _ rfl (by simpa using hm)
  | acquire | keep | release | reset | peek | hasCapacity | offer => exact ht.elim
  | startSpan op destination key =>
    exact ⟨_, _, rfl, fun left => fits_snoc hf rfl rfl (fun _ _ => rfl) fun hm _ =>
      hkept rfl (by simp) _ _ rfl hm⟩
  | log | setAttribute | noteFailure | endSpan | countOperation | countRecovered
  | countScanFailure =>
    exact ⟨_, _, rfl, fun left => fits_snoc hf rfl rfl (fun _ _ => rfl) fun hm _ =>
      hkept rfl (by simp) _ _ rfl hm⟩

theorem reply_fits (hrest : h.backend.repository.AtRest)
    (hk : ∀ k, r = .unsubscribe k → (h.cursors.call t (.evict k)).isSome) (hf : s.Fits t h)
    (hp : (s.past.foldl Stage.next {}).Permits d r e) (ht : r.Tries s.past e) :
    ∃ a s', Trial.reply t e s = some (a, s') ∧ s'.past = s.past ++ [⟨e, a⟩] ∧ s'.Fits t h := by
  unfold Trial.reply
  cases hb : (s.due e).1.bind (s.host.stumble · e) with
  | some x =>
    obtain ⟨m, -, hs⟩ := Option.bind_eq_some_iff.1 hb
    exact ⟨x.1, _, rfl, rfl, stumble_fits hf hp hs⟩
  | none =>
    obtain ⟨a, h', ha, hfits⟩ := answer_fits hrest hk hf hp ht
    rw [ha]
    exact ⟨a, _, rfl, rfl, hfits _⟩

/-- A call that keeps to its order and asks for nothing else comes to its end. -/
theorem run_fits {α : Type} {x : Operation α} {Q : List Exchange → α → Prop} {R : Stage → α → Prop}
    (hrest : h.backend.repository.AtRest)
    (hk : ∀ k, r = .unsubscribe k → (h.cursors.call t (.evict k)).isSome) (hf : s.Fits t h)
    (hx : x.Obeys r.Tries Q s.past) (hr : x.Follows d r R (s.past.foldl Stage.next {})) :
    ∃ a s', (x.run (Trial.reply t)).run s = some (a, s') ∧ s'.Fits t h ∧ Q s'.past a ∧
      R (s'.past.foldl Stage.next {}) a := by
  induction x generalizing s with
  | done a => exact ⟨a, s, rfl, hf, hx, hr⟩
  | perform e next ih =>
    obtain ⟨a, s', ha, hpast, hf'⟩ := reply_fits hrest hk hf hr.1 hx.1
    obtain ⟨b, s'', hb, hrest⟩ := ih a hf' (hpast ▸ hx.2 a)
      (by simpa [hpast] using hr.2 a)
    refine ⟨b, s'', ?_, hrest⟩
    change (Trial.reply t e s).bind _ = _
    rw [ha]
    exact hb

end

/-- What the failures of a call are told under. -/
structure Caption where
  operation : String
  key : Option SubscriberKey
  context : String

/-- The line that a failure adds to the log. -/
def Caption.line (c : Caption) (d : String) (f : Failure) : Log.Entry :=
  ⟨.error, "store operation failed", [.text "op" c.operation, .destination d,
    .text "subscriber" (c.key.elim "" SubscriberKey.display), .text "error" f.message]⟩

/-- The lines that a failure adds to the log: none, if no handler sees it. -/
def Caption.lines (c : Caption) (d : String) (f : Failure) : List Log.Entry :=
  if f.isException then [c.line d f] else []

namespace Request

/-- The calls that are one transaction, and what their failures are told under. -/
def caption? : Request → Option Caption
  | publish m => some ⟨"add_message", none, "Failed to add message " ++ m.identity.value⟩
  | acknowledge k i .standard => some ⟨"acknowledge", some k,
      "Failed to store acknowledgment for: " ++ k.client ++ " on message " ++ i⟩
  | subscribe info _ => some ⟨"add_subscription", some info.key,
      "Failed to lookup subscription for info: " ++ info.key.client⟩
  | lookup k =>
    some ⟨"lookup_subscription", some k, "Failed to lookup subscription for: " ++ k.client⟩
  | subscriptions => some ⟨"get_all_subscriptions", none, "Failed to lookup subscriptions"⟩
  | unsubscribe k =>
    some ⟨"delete_subscription", some k, "Failed to remove subscription for: " ++ k.client⟩
  | messageCount k =>
    some ⟨"get_message_count", some k, "Failed to get Message Count: " ++ k.client⟩
  | _ => none

/-- The arguments of a call are not refused. -/
structure Valid (d : String) (r : Request) : Prop where
  client : ∀ k, r.key? = some k → k.client ≠ ""
  message : ∀ m, r = publish m →
    m.identity.value ≠ "" ∧ (m.destination = "" ∨ m.destination = d)
  description : ∀ x b, r = subscribe x b → x.destination = "" ∨ x.destination = d

/-- The subscribers whose cursors a call evicts. -/
def evicts : Request → List SubscriberKey
  | unsubscribe k => [k]
  | _ => []

end Request

/-- Nothing was told to the log, and no cursor was evicted. -/
structure Quiet (p : List Exchange) : Prop where
  lines : p.filterMap Exchange.line? = []
  evicted : p.filterMap Exchange.evicted? = []

/-- Nothing went wrong, and nothing is committed. -/
structure Fresh (p : List Exchange) : Prop extends Quiet p where
  trouble : p.findSome? Exchange.trouble? = none
  pending : ⟨.commit, .ok ()⟩ ∉ p

/-- Something went wrong, and nothing is committed. -/
structure Broken (w : Trouble) (p : List Exchange) : Prop extends Quiet p where
  trouble : p.findSome? Exchange.trouble? = some w
  pending : ⟨.commit, .ok ()⟩ ∉ p

/-- If something goes wrong inside a transaction, it fails in a way that says so. -/
def Tells {α : Type} (context : String) (p : List Exchange) (a : Except Failure α) : Prop :=
  Fresh p ∨ ∃ w f, Broken w p ∧ a = .error f ∧ f.isException = w.isException ∧
    (w.isOwn = false → f.inContext context = w.failure context)

/-- If something goes wrong, nothing is committed, and the failure says so. -/
def Reports {α : Type} (context : String) (lines : Failure → List Log.Entry) (p : List Exchange)
    (a : Except Failure α) : Prop :=
  ∀ w, p.findSome? Exchange.trouble? = some w → ⟨.commit, .ok ()⟩ ∉ p ∧
    ∃ f, a = .error f ∧ p.filterMap Exchange.line? = lines f ∧ f.isException = w.isException ∧
      (w.isOwn = false → f = w.failure context)

section

variable {α β : Type} {p : List Exchange} {x : Exchange} {w : Trouble} {context : String}
  {lines : Failure → List Log.Entry} {a : Except Failure α}

theorem quiet_snoc (h : Quiet p) (hl : x.line? = none) (he : x.evicted? = none) :
    Quiet (p ++ [x]) :=
  ⟨by simp [h.lines, hl], by simp [h.evicted, he]⟩

theorem fresh_snoc (h : Fresh p) (hl : x.line? = none) (he : x.evicted? = none)
    (ht : x.trouble? = none) (hc : x.effect ≠ .commit) : Fresh (p ++ [x]) :=
  ⟨quiet_snoc h.toQuiet hl he, by simp [List.findSome?_append, h.trouble, ht], fun hm =>
    (List.mem_append.1 hm).elim h.pending fun hm => hc (List.mem_singleton.1 hm ▸ rfl)⟩

/-- The first trouble. -/
theorem broken_snoc (h : Fresh p) (ht : x.trouble? = some w) : Broken w (p ++ [x]) := by
  obtain ⟨e, a⟩ := x
  refine ⟨quiet_snoc h.toQuiet ?_ ?_, by simp [List.findSome?_append, h.trouble, ht], fun hm => ?_⟩
  · cases e <;> first | rfl | cases ht
  · cases e <;> first | rfl | cases ht
  · rcases List.mem_append.1 hm with hm | hm
    · exact h.pending hm
    · cases List.mem_singleton.1 hm
      cases ht

theorem broken_close (h : Broken w p) {u : Unit} : Broken w (p ++ [⟨.close, u⟩]) :=
  ⟨quiet_snoc h.toQuiet rfl rfl, by simp [List.findSome?_append, h.trouble],
    fun hm => (List.mem_append.1 hm).elim h.pending (by simp)⟩

theorem failure_raised {f : Failure} (h : (Trouble.raise f).isOwn = false) :
    f.inContext context = (Trouble.raise f).failure context := by
  have h : f.isOwn = false := h
  simp [Failure.inContext, h, Trouble.failure, Trouble.code, Trouble.text]

theorem tells_raised {f : Failure} (h : Fresh p) (ht : x.trouble? = some (.raise f)) :
    Tells context (p ++ [x]) (.error f : Except Failure α) :=
  Or.inr ⟨_, f, broken_snoc h ht, rfl, rfl, failure_raised⟩

theorem tells_required {s : Status} (h : Fresh p) (hl : x.line? = none) (he : x.evicted? = none)
    (ht : x.trouble? = Trouble.ofStatus? s) (hc : x.effect ≠ .commit) :
    Tells context (p ++ [x]) (s.require context) := by
  by_cases hs : s.isOk
  · exact Or.inl (fresh_snoc h hl he (by simp [ht, Trouble.ofStatus?, hs]) hc)
  · have ht : x.trouble? = some (.report s) := by simp [ht, Trouble.ofStatus?, hs]
    refine Or.inr ⟨_, _, broken_snoc h ht, by rw [Status.require, if_neg hs], rfl, fun _ => ?_⟩
    exact Failure.inContext_own rfl _

theorem tells_error {f : Failure} (h : Tells context p (.error f : Except Failure α)) :
    Tells context p (.error f : Except Failure β) := by
  rcases h with h | ⟨w, g, hb, hg, hf⟩
  · exact Or.inl h
  · cases hg
    exact Or.inr ⟨w, f, hb, rfl, hf⟩

theorem fresh_of_tells {b : α} (h : Tells context p (.ok b)) : Fresh p :=
  h.resolve_right (by rintro ⟨_, _, _, h, _⟩; cases h)

theorem reports_none (h : p.findSome? Exchange.trouble? = none) : Reports context lines p a := by
  intro w hw
  rw [h] at hw
  cases hw

theorem none_of_reports {b : α} (h : Reports context lines p (.ok b)) :
    p.findSome? Exchange.trouble? = none := by
  cases hw : p.findSome? Exchange.trouble? with
  | none => rfl
  | some w =>
    obtain ⟨-, f, hf, -⟩ := h w hw
    cases hf

theorem reports_error {f : Failure} (h : Reports context lines p (.error f : Except Failure α)) :
    Reports context lines p (.error f : Except Failure β) := by
  intro w hw
  obtain ⟨hc, g, hg, hrest⟩ := h w hw
  cases hg
  exact ⟨hc, f, rfl, hrest⟩

namespace Op

variable {P : List Exchange → Effect → Prop} {body : Op α}

/-- What goes wrong in a transaction is reported, and nothing else happens to log and cursors. -/
theorem reports_transacted (hP : ∀ p, P p .begin ∧ P p .commit ∧ P p .close) (hp : Fresh p)
    (h : body.Obeys P (Tells context) (p ++ [⟨.begin, .ok ()⟩])) :
    (inContext context (inTransaction body)).Obeys P
      (fun p a => Reports context (fun _ => []) p a ∧ Quiet p) p := by
  refine obeys_inContext.2 (obeys_bind.2 ⟨(hP _).1, ?_⟩)
  have hbroken : ∀ {w p} {f : Failure}, Broken w p → f.isException = w.isException ∧
      (w.isOwn = false → f.inContext context = w.failure context) →
      Reports context (fun _ => []) p
        ((Except.error f : Except Failure α).mapError (Failure.inContext context)) ∧ Quiet p := by
    intro w p f hb hf
    refine ⟨fun v hv => ?_, hb.toQuiet⟩
    obtain rfl : w = v := Option.some.inj (hb.trouble.symm.trans hv)
    exact ⟨hb.pending, _, rfl, hb.lines, Failure.isException_inContext.trans hf.1, hf.2⟩
  rintro (f | ⟨⟨⟩⟩)
  · exact hbroken (broken_snoc hp rfl) ⟨rfl, failure_raised⟩
  refine obeys_bind.2 (obeys_attempt.2 (obeys_bind.2 (obeys_mono ?_ h)))
  rintro p (f | b) hp
  · refine obeys_bind.2 ⟨(hP _).2.2, fun _ => ?_⟩
    rcases hp with hp | ⟨w, g, hb, hg, hf⟩
    · exact ⟨reports_none (fresh_snoc hp rfl rfl rfl (by simp)).trouble,
        quiet_snoc hp.toQuiet rfl rfl⟩
    · cases hg
      exact hbroken (broken_close hb) hf
  · have hp := fresh_of_tells hp
    refine obeys_bind.2 ⟨(hP _).2.1, ?_⟩
    rintro (f | ⟨⟨⟩⟩)
    · refine obeys_bind.2 ⟨(hP _).2.2, fun _ => ?_⟩
      exact hbroken (broken_close (broken_snoc hp rfl)) ⟨rfl, failure_raised⟩
    · refine obeys_bind.2 ⟨(hP _).2.2, fun _ => ?_⟩
      refine ⟨reports_none ?_, quiet_snoc (quiet_snoc hp.toQuiet rfl rfl) rfl rfl⟩
      simp [List.findSome?_append, hp.trouble, Exchange.trouble?, Trouble.of?]

/-- A reported status is required, and then nothing more is asked for. -/
theorem required_tells {s : Status} {b : α} (h : Fresh p) (hl : x.line? = none)
    (he : x.evicted? = none) (ht : x.trouble? = Trouble.ofStatus? s) (hc : x.effect ≠ .commit) :
    (do require s context; pure b : Op α).Obeys P (Tells context) (p ++ [x]) := by
  refine obeys_bind.2 (obeys_require.2 ?_)
  have hs : Tells context (p ++ [x]) (s.require context) := tells_required h hl he ht hc
  cases hr : s.require context with
  | error f => exact tells_error (hr ▸ hs)
  | ok _ => exact Or.inl (fresh_of_tells (hr ▸ hs))

/-- A failure is told to the log in one line, if it is an exception. -/
theorem reports_observed {c : Caption} {d : String} {evicted : List SubscriberKey}
    (hP : ∀ p e, e.isTold → P p e)
    (h : ∀ span, body.Obeys P
      (fun p a => Reports c.context (fun _ => []) p a ∧ p.filterMap Exchange.evicted? = evicted)
      [⟨.startSpan c.operation d c.key, span⟩]) :
    (observed c.operation d c.key body).Obeys P
      (fun p a => Reports c.context (c.lines d) p a ∧
        p.filterMap Exchange.evicted? = evicted) [] := by
  refine obeys_bind.2 ⟨hP _ _ rfl, fun span => ?_⟩
  refine obeys_bind.2 (obeys_attempt.2 (obeys_mono ?_ (h span)))
  rintro p (f | a) ⟨hr, he⟩
  · refine obeys_bind.2 ?_
    unfold report
    split
    · rename_i hex
      refine ⟨hP _ _ rfl, fun _ => ⟨hP _ _ rfl, fun _ => ⟨hP _ _ rfl, fun _ => ⟨hP _ _ rfl,
        fun _ => ⟨fun w hw => ?_, ?_⟩⟩⟩⟩⟩
      · simp only [List.append_assoc, List.findSome?_append, List.findSome?_cons,
          Exchange.trouble?, List.findSome?_nil, List.cons_append, List.nil_append,
          Option.or_none] at hw
        obtain ⟨hc, g, hg, hl, hf⟩ := hr w hw
        cases hg
        refine ⟨by simpa using hc, f, rfl, ?_, hf⟩
        simp only [List.append_assoc, List.filterMap_append, hl, List.filterMap_cons,
          Exchange.line?, List.filterMap_nil, List.nil_append, List.append_nil, Caption.lines,
          if_pos hex]
        rfl
      · simpa [List.filterMap_cons, Exchange.evicted?] using he
    · rename_i hex
      refine ⟨hP _ _ rfl, fun _ => ⟨fun w hw => ?_, ?_⟩⟩
      · obtain ⟨hc, g, hg, hl, hf⟩ := hr w (by simpa [Exchange.trouble?] using hw)
        cases hg
        exact ⟨by simpa using hc, f, rfl, by simp [hl, Exchange.line?, Caption.lines, hex], hf⟩
      · simpa [List.filterMap_cons, Exchange.evicted?] using he
  · refine ⟨hP _ _ rfl, fun _ => ⟨hP _ _ rfl, fun _ => ⟨reports_none ?_, ?_⟩⟩⟩
    · simp [List.findSome?_append, none_of_reports hr, Exchange.trouble?]
    · simpa [List.filterMap_cons, Exchange.evicted?] using he

end Op

/-- What a trial requires of a call, and what it gives. -/
def Request.Accounts (d : String) (r : Request) (c : Caption) : Prop :=
  (r.operation d).Obeys r.Tries
    (fun p a => Reports c.context (c.lines d) p a ∧ p.filterMap Exchange.evicted? = r.evicts) []

theorem fresh_span {operation d : String} {key : Option SubscriberKey} {span : Telemetry.Span} :
    Fresh [⟨.startSpan operation d key, span⟩] :=
  ⟨⟨rfl, rfl⟩, rfl, by simp⟩

theorem fresh_begin (h : Fresh p) : Fresh (p ++ [⟨.begin, .ok ()⟩]) :=
  fresh_snoc h rfl rfl rfl (by simp)

theorem tries_told {r : Request} {e : Effect} (h : e.isTold) : r.Tries p e := by
  cases e <;> trivial

theorem tries_transaction {r : Request} (p : List Exchange) :
    r.Tries p .begin ∧ r.Tries p .commit ∧ r.Tries p .close := ⟨trivial, trivial, trivial⟩

open Op

variable {d : String} {k : SubscriberKey} {r : Request}

theorem obeys_valid {Q : List Exchange → Except Failure Unit → Prop} (hk : k.client ≠ "")
    (h : Q p (.ok ())) : (validate k).Obeys r.Tries Q p :=
  obeys_validate (fun he => absurd (String.isEmpty_iff.1 he) hk) h

theorem obeys_validMessage {m : Message} {Q : List Exchange → Except Failure Unit → Prop}
    (h : (Request.publish m).Valid d) (hq : Q p (.ok ())) :
    (validateMessage d m).Obeys r.Tries Q p := by
  obtain ⟨hid, hd⟩ := h.message m rfl
  have hv : validateMessage d m = pure () := by
    rcases hd with hd | hd <;> simp [validateMessage, hid, hd]
  rw [hv]
  exact hq

theorem reports_told {e : Log.Entry} {u : Unit} {evicted : List SubscriberKey}
    (ht : p.findSome? Exchange.trouble? = none) (he : p.filterMap Exchange.evicted? = evicted) :
    Reports context lines (p ++ [⟨.log e, u⟩]) a ∧
      (p ++ [Exchange.mk (.log e) u]).filterMap Exchange.evicted? = evicted := by
  refine ⟨reports_none ?_, ?_⟩
  · simp [List.findSome?_append, ht, Exchange.trouble?]
  · simpa [List.filterMap_cons, Exchange.evicted?] using he

/-- If a transaction gave something, all went well. -/
theorem reports_bind {body : Op α} {f : α → Op β}
    (h : body.Obeys r.Tries (fun p a => Reports context (fun _ => []) p a ∧ Quiet p) p)
    (hf : ∀ a p, p.findSome? Exchange.trouble? = none → p.filterMap Exchange.evicted? = [] →
      (f a).Obeys r.Tries (fun p a => Reports context (fun _ => []) p a ∧
        p.filterMap Exchange.evicted? = []) p) :
    (body >>= f).Obeys r.Tries (fun p a => Reports context (fun _ => []) p a ∧
      p.filterMap Exchange.evicted? = []) p := by
  refine obeys_bind.2 (obeys_mono ?_ h)
  rintro p (f | a) ⟨hr, hq⟩
  · exact ⟨reports_error hr, hq.evicted⟩
  · exact hf a p (none_of_reports hr) hq.evicted

theorem lookup_accounts (hk : k.client ≠ "") : (Request.lookup k).Accounts d
    ⟨"lookup_subscription", some k, "Failed to lookup subscription for: " ++ k.client⟩ := by
  refine reports_observed (fun _ _ => tries_told) fun span => ?_
  refine obeys_bind.2 (obeys_valid hk ?_)
  refine obeys_mono (fun _ _ h => ⟨h.1, h.2.evicted⟩)
    (reports_transacted tries_transaction fresh_span ?_)
  refine ⟨trivial, ?_⟩
  rintro (f | o)
  · exact tells_raised (fresh_begin fresh_span) rfl
  · exact Or.inl (fresh_snoc (fresh_begin fresh_span) rfl rfl rfl (by simp))

theorem subscriptions_accounts : Request.subscriptions.Accounts d
    ⟨"get_all_subscriptions", none, "Failed to lookup subscriptions"⟩ := by
  refine reports_observed (fun _ _ => tries_told) fun span => ?_
  refine obeys_mono (fun _ _ h => ⟨h.1, h.2.evicted⟩)
    (reports_transacted tries_transaction fresh_span ?_)
  refine ⟨trivial, ?_⟩
  rintro (f | xs)
  · exact tells_raised (fresh_begin fresh_span) rfl
  · exact Or.inl (fresh_snoc (fresh_begin fresh_span) rfl rfl rfl (by simp))

theorem messageCount_accounts (hk : k.client ≠ "") : (Request.messageCount k).Accounts d
    ⟨"get_message_count", some k, "Failed to get Message Count: " ++ k.client⟩ := by
  refine reports_observed (fun _ _ => tries_told) fun span => ?_
  refine obeys_bind.2 (obeys_valid hk ?_)
  refine reports_bind (reports_transacted tries_transaction fresh_span ?_)
    fun _ _ ht he => ⟨trivial, fun _ => reports_told ht he⟩
  refine ⟨trivial, ?_⟩
  rintro (f | n)
  · exact tells_raised (fresh_begin fresh_span) rfl
  · exact Or.inl (fresh_snoc (fresh_begin fresh_span) rfl rfl rfl (by simp))

theorem publish_accounts {m : Message} (h : (Request.publish m).Valid d) :
    (Request.publish m).Accounts d
      ⟨"add_message", none, "Failed to add message " ++ m.identity.value⟩ := by
  refine reports_observed (fun _ _ => tries_told) fun span => ?_
  refine obeys_bind.2 (obeys_validMessage h ?_)
  refine reports_bind (reports_transacted tries_transaction fresh_span ?_)
    fun _ _ ht he => ⟨trivial, fun _ => reports_told ht he⟩
  refine obeys_bind.2 ⟨trivial, ?_⟩
  rintro (f | a)
  · exact tells_raised (fresh_begin fresh_span) rfl
  · exact required_tells (fresh_begin fresh_span) rfl rfl rfl (by simp)

theorem acknowledge_accounts {i : String} (hk : k.client ≠ "") :
    (Request.acknowledge k i .standard).Accounts d ⟨"acknowledge", some k,
      "Failed to store acknowledgment for: " ++ k.client ++ " on message " ++ i⟩ := by
  refine reports_observed (fun _ _ => tries_told) fun span => ?_
  refine obeys_bind.2 (obeys_valid hk ?_)
  refine reports_bind (reports_transacted tries_transaction fresh_span ?_)
    fun _ _ ht he => ⟨trivial, fun _ => reports_told ht he⟩
  refine obeys_bind.2 ⟨trivial, ?_⟩
  rintro (f | _ | w)
  · exact tells_raised (fresh_begin fresh_span) rfl
  · exact Or.inl (fresh_snoc (fresh_begin fresh_span) rfl rfl rfl (by simp))
  refine obeys_bind.2 ⟨trivial, ?_⟩
  have hp : Fresh [⟨.startSpan "acknowledge" d (some k), span⟩, ⟨.begin, .ok ()⟩,
      ⟨.call (.resolve d i), .ok (some w)⟩] :=
    fresh_snoc (fresh_begin fresh_span) rfl rfl rfl (by simp)
  rintro (f | s)
  · exact tells_raised hp rfl
  · exact required_tells hp rfl rfl rfl (by simp)

theorem subscribe_accounts {y : Subscription} {retroactive : Bool}
    (h : (Request.subscribe y retroactive).Valid d) :
    (Request.subscribe y retroactive).Accounts d ⟨"add_subscription", some y.key,
      "Failed to lookup subscription for info: " ++ y.key.client⟩ := by
  refine reports_observed (fun _ _ => tries_told) fun span => ?_
  refine obeys_bind.2 (obeys_valid (h.client _ rfl) ?_)
  rw [if_neg]
  · refine reports_bind (reports_transacted tries_transaction fresh_span
      (obeys_bind.2 ⟨trivial, ?_⟩)) fun _ _ ht he => ⟨trivial, fun _ => reports_told ht he⟩
    rintro (f | s)
    · exact tells_raised (fresh_begin fresh_span) rfl
    · exact obeys_require.2 (tells_required (fresh_begin fresh_span) rfl rfl rfl (by simp))
  · rcases h.description y retroactive rfl with hd | hd <;> simp [hd]

/-- A deletion evicts the cursor before it fails. -/
theorem unsubscribe_accounts (hk : k.client ≠ "") : (Request.unsubscribe k).Accounts d
    ⟨"delete_subscription", some k, "Failed to remove subscription for: " ++ k.client⟩ := by
  refine reports_observed (fun _ _ => tries_told) fun span => ?_
  refine obeys_bind.2 (obeys_valid hk ?_)
  refine obeys_bind.2 (obeys_attempt.2 (obeys_mono ?_
    (reports_transacted tries_transaction fresh_span (obeys_bind.2 ⟨trivial, ?_⟩))))
  · rintro p a ⟨hr, hq⟩
    have hevicted : (p ++ [Exchange.mk (.evict k) ()]).filterMap Exchange.evicted? = [k] := by
      simp [hq.evicted, Exchange.evicted?]
    refine obeys_bind.2 ⟨⟨rfl, hq.evicted⟩, fun _ => ?_⟩
    refine obeys_bind.2 (obeys_ofExcept.2 ?_)
    cases a with
    | error f =>
      refine ⟨fun w hw => ?_, hevicted⟩
      obtain ⟨hc, g, hg, -, hf⟩ := hr w (by simpa [List.findSome?_append, Exchange.trouble?] using hw)
      exact ⟨by simpa using hc, g, hg, by simp [hq.lines, List.filterMap_cons, Exchange.line?], hf⟩
    | ok _ =>
      refine ⟨trivial, fun _ => reports_told ?_ hevicted⟩
      simp [List.findSome?_append, none_of_reports hr, Exchange.trouble?]
  · rintro (f | s)
    · exact tells_raised (fresh_begin fresh_span) rfl
    · exact obeys_require.2 (tells_required (fresh_begin fresh_span) rfl rfl rfl (by simp))

/-- Every call that is one transaction accounts for what goes wrong in it. -/
theorem request_accounts {c : Caption} (hc : r.caption? = some c) (h : r.Valid d) :
    r.Accounts d c := by
  cases r with
  | publish => cases hc; exact publish_accounts h
  | acknowledge k i kind =>
    cases kind with
    | standard => cases hc; exact acknowledge_accounts (h.client k rfl)
    | unmatched => cases hc
  | subscribe => cases hc; exact subscribe_accounts h
  | lookup k => cases hc; exact lookup_accounts (h.client k rfl)
  | subscriptions => cases hc; exact subscriptions_accounts
  | unsubscribe k => cases hc; exact unsubscribe_accounts (h.client k rfl)
  | messageCount k => cases hc; exact messageCount_accounts (h.client k rfl)
  | _ => cases hc

end

theorem evicts_eq {r : Request} {k : SubscriberKey} :
    r.evicts = [k] ↔ r = .unsubscribe k := by
  cases r <;> simp [Request.evicts]

/-- A call that is one transaction returns, whatever goes wrong in it. If the repository does not do
something that it is asked for, the caller is told so once, with what was attempted and why, and so
is the log, unless what is raised is no exception. What is committed is as before, the next
transaction can be started, and no cursor is touched, but that a deletion leaves its subscriber
without one. -/
theorem failed_call_is_undone {t : Thread} {h : Host} {r : Request} {c : Caption} {m : Option Mishap}
    (hrest : h.backend.repository.AtRest) (hcur : h.cursors.Sound) (hc : r.caption? = some c)
    (hv : r.Valid h.destination)
    (hk : ∀ k, r = .unsubscribe k → ∀ i u, h.cursors.mapped.find? k = some i →
      (h.cursors.slot i).holder = some u → u = t) :
    ∃ a s, r.trial t h m = some (a, s) ∧
      ∀ w, s.past.findSome? Exchange.trouble? = some w →
        (∃ f, a = .error f ∧
          (s.host.logger = if w.isException then h.logger.log (c.line h.destination f)
            else h.logger) ∧
          (w.isOwn = false → f = .store w.code (c.context ++ ": " ++ w.text))) ∧
        s.host.backend.repository = h.backend.repository ∧
        (h.backend.repository.Unhindered → s.host.backend.repository.begin.1 = .ok ()) ∧
        (r.deletes = false → s.host.cursors = h.cursors) ∧
        ∀ k, r = .unsubscribe k → s.host.cursors.Shows k none ∧
          ∀ j, j ≠ k → SameSlot j h.cursors s.host.cursors := by
  obtain ⟨a, s, hrun, hfits, ⟨hreports, hevicts⟩, hrests⟩ :=
    run_fits (s := { host := h, mishap := m }) (t := t) hrest
      (fun k hr => Cursor.Cache.evict_own (hk k hr))
      ⟨Or.inl ⟨rfl, rfl⟩, fun _ => rfl, fun _ => by simp [Stage.Undone]⟩
      (request_accounts hc hv) (operation_follows r)
  refine ⟨a, s, hrun, fun w hw => ?_⟩
  obtain ⟨hopen, f, hf, hlines, hex, hown⟩ := hreports w hw
  have hundone := hfits.undone hopen
  rw [Stage.Undone, if_pos hrests.1] at hundone
  refine ⟨⟨f, hf, ?_, hown⟩, hundone, fun hu => ?_, fun hd => ?_, fun k hr => ?_⟩
  · rw [hfits.logger hopen, hlines, Caption.lines, hex]
    split <;> rfl
  · rw [hundone]
    exact Repository.begin_unhindered hrest hu
  · rcases hfits.cursors with ⟨-, hsame⟩ | ⟨k, a, hone, -⟩
    · exact hsame
    · rw [hevicts, evicts_eq] at hone
      simp [hone, Request.deletes] at hd
  · rcases hfits.cursors with ⟨hnone, -⟩ | ⟨j, a, hone, hcall⟩
    · rw [hevicts, hr] at hnone
      cases hnone
    · obtain rfl : j = k := by simpa [hevicts, hr, Request.evicts] using hone.symm
      obtain ⟨hmap, -, -⟩ := Cursor.Cache.evict_spec (hcur.inside j) hcall
      have hgone : s.host.cursors.mapped.find? j = none := by simp [hmap]
      refine ⟨?_, fun i hi => sameSlot_of_evict hcur hcall hi⟩
      have hfree : s.host.cursors.Free j := by simp [Cursor.Cache.Free, hgone]
      simpa [hgone] using Cursor.Cache.shows_of_free hfree

/-- A subscriber has taken two messages. -/
def bothRead : List Choice := System.twoNotes ++
  [.call "main" (.subscribe { destination := "orders", key := ⟨"a", none⟩ } true),
    .call "main" (.recoverNext ⟨"a", none⟩ 2 .reference), .hear "main" (.ok true),
    .hear "main" (.ok true), .hear "main" (.ok true), .hear "main" (.ok true)]

/-- The record is deleted, and then the repository says that it is busy. -/
def busyDelete : Repository.Mishap where
  behind := 1
  done := [.delete "orders" ⟨"a", none⟩]
  trouble := .report ⟨.busy, "locked"⟩

theorem busy_delete_is_undone :
    let h := ((System.fresh "orders").play bothRead).2.host
    (h.cursors.shown ⟨"a", none⟩ = some ⟨2, 0⟩ ∧ h.ledger.record ⟨"a", none⟩ ≠ none) ∧
    ∃ a s, (Request.unsubscribe ⟨"a", none⟩).trial "main" h (some busyDelete) = some (a, s) ∧
      a = .error (.store .busy "Failed to remove subscription for: a: locked") ∧
      s.host.backend.repository = h.backend.repository ∧
      s.host.backend.repository.begin.1 = .ok () ∧
      s.host.logger = h.logger.log ⟨.error, "store operation failed",
        [.text "op" "delete_subscription", .destination "orders", .text "subscriber" "a:NOT_SET",
          .text "error" "Failed to remove subscription for: a: locked"]⟩ ∧
      s.host.cursors.Shows ⟨"a", none⟩ none := by
  intro h
  have hopen := System.opened_fresh "orders"
  have hs := sound_run (sound_opened hopen) (System.play_run bothRead)
  have hfree : (h.cursors.mapped.find? ⟨"a", none⟩).bind (fun i => (h.cursors.slot i).holder) =
      none := by decide +kernel
  obtain ⟨a, s, hrun, hall⟩ := failed_call_is_undone (t := "main") (h := h)
    (r := .unsubscribe ⟨"a", none⟩) (m := some busyDelete) (by decide +kernel) hs.cursors rfl
    ⟨by simp [Request.key?], nofun, nofun⟩ (by
      rintro k ⟨⟩ i u hi hu
      rw [hi] at hfree
      rw [Option.bind_some, hu] at hfree
      cases hfree)
  have htrouble : ((Request.unsubscribe ⟨"a", none⟩).trial "main" h (some busyDelete)).map
      (·.2.past.findSome? Exchange.trouble?) = some (some busyDelete.trouble) := by decide +kernel
  rw [hrun] at htrouble
  obtain ⟨⟨f, hf, hlog, hown⟩, hsame, hbegin, -, hevicted⟩ := hall _ (Option.some.inj htrouble)
  obtain rfl := hown rfl
  have hd : h.destination = "orders" := by decide +kernel
  rw [hd, if_pos (show busyDelete.trouble.isException from rfl)] at hlog
  refine ⟨by decide +kernel, a, s, hrun, hf, hsame, hbegin (by decide +kernel), hlog,
    (hevicted _ rfl).1⟩

end Store
end DurableTopic

import DurableTopic.Proofs.Histories
/-! Calls that are one transaction. One that succeeds was committed once, between its start and its
end, and one that fails was not. -/
namespace DurableTopic.Store

open Cursor (Thread)

/-- A commit that is answered well. -/
def Exchange.commits : Exchange → Bool
  | ⟨.commit, .ok _⟩ => true
  | _ => false

/-- The event that commits the transaction of a call. -/
def Event.committing (t : Thread) (n : Nat) (r : Request) : Event := .ask t n r ⟨.commit, .ok ()⟩

namespace Request

/-- Whether a call is one transaction that shows or changes what is kept of messages and subscribers.
An acknowledgement of a message that never matched asks nothing of a repository. -/
def registers : Request → Bool
  | publish _ | acknowledge _ _ .standard | subscribe .. | lookup _ | subscriptions
  | unsubscribe _ => true
  | _ => false

/-- What a call asked in its transaction by the time it may be committed, and what it then gives. -/
def Asked (d : String) : (r : Request) → r.Result → List Exchange → Prop
  | publish m, n, p => ∃ s : Status, s.isOk ∧ p = [⟨.call (.append (rowOf d m)), .ok ⟨s, n⟩⟩]
  | acknowledge k i .standard, _, p => ∃ (w : Watermark) (s : Status), s.isOk ∧
    p = [⟨.call (.resolve d i), .ok (some w)⟩, ⟨.call (.persist d k w), .ok s⟩]
  | subscribe x retroactive, _, p => ∃ s : Status, s.isOk ∧
    p = [⟨.call (.put ⟨d, x.key, x.selector, retroactive, .start⟩ retroactive), .ok s⟩]
  | lookup k, o, p => p = [⟨.call (.get d k), .ok o⟩]
  | subscriptions, xs, p => p = [⟨.call (.list d), .ok xs⟩]
  | unsubscribe k, _, p => ∃ s : Status, s.isOk ∧ p = [⟨.call (.delete d k), .ok s⟩]
  | _, _, _ => False

/-- The answers to a call that is ready to commit, and what it then gives. -/
def Ready (d : String) (r : Request) (p : List Exchange) (v : r.Result) : Prop :=
  ∃ span asked, p = span :: ⟨.begin, .ok ()⟩ :: asked ∧ r.Asked d v asked

end Request

/-- Nothing was committed. -/
def Unsettled (p : List Exchange) : Prop := ∀ x ∈ p, x.commits = false

/-- Where something is given, it was committed once, and what was answered until then decides what
is given. Where nothing is given nothing was committed. -/
def Once {α : Type} (A : List Exchange → α → Prop) (p : List Exchange) : Except Failure α → Prop
  | .ok v => ∃ before after, p = before ++ ⟨.commit, .ok ()⟩ :: after ∧ A before v ∧
    Unsettled before ∧ Unsettled after
  | .error _ => Unsettled p

section

variable {α : Type} {A : List Exchange → α → Prop} {p : List Exchange} {x : Exchange}
  {a : Except Failure α}

theorem unsettled_nil : Unsettled [] := by simp [Unsettled]

theorem unsettled_snoc (h : Unsettled p) (hx : x.commits = false) : Unsettled (p ++ [x]) := by
  intro y hy
  rcases List.mem_append.1 hy with hy | hy
  · exact h y hy
  · exact List.mem_singleton.1 hy ▸ hx

theorem commits_told (h : x.effect.isTold) : x.commits = false := by
  obtain ⟨e, a⟩ := x
  cases e <;> first | rfl | cases h

theorem once_snoc (hx : x.commits = false) (h : Once A p a) : Once A (p ++ [x]) a := by
  cases a with
  | error f => exact unsettled_snoc h hx
  | ok v =>
    obtain ⟨before, after, rfl, hv, hb, ha⟩ := h
    exact ⟨before, after ++ [x], by simp, hv, hb, unsettled_snoc ha hx⟩

/-- What is asked in a transaction is committed once, or not at all. -/
theorem obeys_once {P : List Exchange → Effect → Prop} {context : String} {y : Op α}
    (hP : ∀ p, P p .begin ∧ P p .close) (hA : ∀ p v, A p v → P p .commit) (hp : Unsettled p)
    (h : y.Obeys P (fun p a => Unsettled p ∧ ∀ v, a = .ok v → A p v) (p ++ [⟨.begin, .ok ()⟩])) :
    (inContext context (inTransaction y)).Obeys P (Once A) p := by
  refine Op.obeys_inTransaction hP (fun p y a => once_snoc rfl) (fun f => unsettled_snoc hp rfl)
    (Op.obeys_mono ?_ h)
  rintro p (f | v) ⟨hq, hv⟩
  · exact hq
  · have hv := hv v rfl
    exact ⟨hA p v hv, ⟨p, [], rfl, hv, hq, unsettled_nil⟩, fun f => unsettled_snoc hq rfl⟩

end

namespace Request

/-- A call is committed only when it is ready. -/
def Commits (d : String) (r : Request) (p : List Exchange) (e : Effect) : Prop :=
  e = .commit → ∃ v, r.Ready d p v

/-- A call that gives something was committed once, and one that fails was not. -/
def Settles (d : String) (r : Request) (p : List Exchange) (a : Except Failure r.Result) : Prop :=
  r.registers → Once (r.Ready d) p a

end Request

section

variable {d : String} {k : SubscriberKey} {m : Message} {r : Request} {p : List Exchange}
  {α : Type} {x : Exchange}

open Op

theorem unsettled_one (h : x.commits = false) : Unsettled [x] := by
  intro y hy
  exact List.mem_singleton.1 hy ▸ h

theorem unsettled_asked {c : Repository.Call} {a : c.Reply} (h : x.commits = false) :
    Unsettled [x, ⟨.begin, .ok ()⟩, ⟨.call c, a⟩] :=
  unsettled_snoc (unsettled_snoc (unsettled_one h) rfl) rfl

theorem commits_other {e : Effect} (h : e ≠ .commit) : r.Commits d p e := fun hc => absurd hc h

theorem commits_told_to {e : Effect} (h : e.isTold) : r.Commits d p e :=
  commits_other fun hc => by
    rw [hc] at h
    cases h

/-- A call that is seen by the telemetry is committed once if what it does in between is. -/
theorem observed_once {A : List Exchange → α → Prop} {operation : String}
    {key : Option SubscriberKey} {y : Op α}
    (h : ∀ span, y.Obeys (r.Commits d) (Once A) [⟨.startSpan operation d key, span⟩]) :
    (observed operation d key y).Obeys (r.Commits d) (Once A) [] :=
  obeys_observed (fun _ _ => commits_told_to) (fun _ _ _ hx => once_snoc (commits_told hx)) h

/-- A call on the repository in a transaction of its own. -/
theorem transacted_once {A : List Exchange → α → Prop} {context : String} {y : Op α}
    (hx : x.commits = false) (hA : ∀ p v, A p v → ∃ v, r.Ready d p v)
    (h : y.Obeys (r.Commits d) (fun p a => Unsettled p ∧ ∀ v, a = .ok v → A p v)
      [x, ⟨.begin, .ok ()⟩]) :
    (inContext context (inTransaction y)).Obeys (r.Commits d) (Once A) [x] :=
  obeys_once (fun _ => ⟨commits_other (by simp), commits_other (by simp)⟩)
    (fun p v hv _ => hA p v hv) (unsettled_one hx) h

/-- A call on the repository may be refused. -/
theorem required_once {A : List Exchange → Unit → Prop} {s : Status} {context : String}
    (hp : Unsettled p) (h : s.isOk → A p ()) : (require s context).Obeys (r.Commits d)
      (fun p a => Unsettled p ∧ ∀ v, a = .ok v → A p v) p := by
  refine obeys_require.2 ?_
  by_cases hs : s.isOk
  · exact ⟨hp, fun _ _ => h hs⟩
  · rw [Status.require, if_neg hs]
    exact ⟨hp, fun _ hv => by cases hv⟩

theorem required_given {A : List Exchange → α → Prop} {s : Status} {context : String} {v : α}
    (hp : Unsettled p) (h : s.isOk → A p v) :
    (require s context >>= fun _ => (pure v : Op α)).Obeys (r.Commits d)
      (fun p a => Unsettled p ∧ ∀ v, a = .ok v → A p v) p := by
  refine obeys_bind.2 (obeys_mono ?_ (required_once (A := fun p _ => A p v) hp h))
  rintro p (f | _) ⟨hq, hv⟩
  · exact ⟨hq, nofun⟩
  · refine ⟨hq, ?_⟩
    rintro _ ⟨⟩
    exact hv () rfl

theorem publish_once :
    (publish d m).Obeys ((Request.publish m).Commits d) (Once ((Request.publish m).Ready d)) [] := by
  refine observed_once fun span => ?_
  refine obeys_bind.2 (obeys_mono ?_ validateMessage_obeys)
  rintro p (f | _) ⟨rfl, -⟩
  · exact unsettled_one rfl
  refine obeys_bind.2 (obeys_mono (Q := Once ((Request.publish m).Ready d)) ?_ ?_)
  · rintro p (f | n) hp
    · exact hp
    · exact ⟨commits_told_to rfl, fun _ => once_snoc rfl hp⟩
  refine transacted_once rfl (fun _ _ => Exists.intro _) (obeys_bind.2 ⟨commits_other (by simp), ?_⟩)
  rintro (f | ⟨s, n⟩)
  · exact ⟨unsettled_asked rfl, nofun⟩
  · exact required_given (unsettled_asked rfl) fun hs => ⟨_, _, rfl, s, hs, rfl⟩

theorem acknowledge_once {i : String} : (acknowledge d k i .standard).Obeys
    ((Request.acknowledge k i .standard).Commits d)
    (Once ((Request.acknowledge k i .standard).Ready d)) [] := by
  refine observed_once fun span => obeys_bind.2 (obeys_validate (fun _ => unsettled_one rfl) ?_)
  refine obeys_bind.2 (obeys_mono
    (Q := Once fun p _ => (Request.acknowledge k i .standard).Ready d p ()) ?_ ?_)
  · rintro p (f | w) hp
    · exact hp
    · exact ⟨commits_told_to rfl, fun _ => once_snoc (a := .ok ()) rfl hp⟩
  refine transacted_once rfl (fun _ _ => Exists.intro ()) (obeys_bind.2 ⟨commits_other (by simp), ?_⟩)
  rintro (f | _ | w)
  · exact ⟨unsettled_asked rfl, nofun⟩
  · exact ⟨unsettled_asked rfl, nofun⟩
  refine obeys_bind.2 ⟨commits_other (by simp), ?_⟩
  rintro (f | s)
  · exact ⟨unsettled_snoc (unsettled_asked rfl) rfl, nofun⟩
  · exact required_given (unsettled_snoc (unsettled_asked rfl) rfl) fun hs =>
      ⟨_, _, rfl, w, s, hs, rfl⟩

theorem subscribe_once {info : Subscription} {b : Bool} : (subscribe d info b).Obeys
    ((Request.subscribe info b).Commits d) (Once ((Request.subscribe info b).Ready d)) [] := by
  refine observed_once fun span => obeys_bind.2 (obeys_validate (fun _ => unsettled_one rfl) ?_)
  simp only
  split
  · exact unsettled_one rfl
  refine obeys_bind.2 (obeys_mono (Q := Once ((Request.subscribe info b).Ready d)) ?_ ?_)
  · rintro p (f | _) hp
    · exact hp
    · exact ⟨commits_told_to rfl, fun _ => once_snoc rfl hp⟩
  refine transacted_once rfl (fun _ _ => Exists.intro _) (obeys_bind.2 ⟨commits_other (by simp), ?_⟩)
  rintro (f | s)
  · exact ⟨unsettled_asked rfl, nofun⟩
  · exact required_once (unsettled_asked rfl) fun hs => ⟨_, _, rfl, s, hs, rfl⟩

theorem lookup_once :
    (lookup d k).Obeys ((Request.lookup k).Commits d) (Once ((Request.lookup k).Ready d)) [] := by
  refine observed_once fun span => obeys_bind.2 (obeys_validate (fun _ => unsettled_one rfl) ?_)
  refine transacted_once rfl (fun _ _ => Exists.intro _)
    ⟨commits_other (by simp), fun a => ⟨unsettled_asked rfl, ?_⟩⟩
  rintro o rfl
  exact ⟨_, _, rfl, rfl⟩

theorem subscriptions_once : (subscriptions d).Obeys (Request.subscriptions.Commits d)
    (Once (Request.subscriptions.Ready d)) [] := by
  refine observed_once fun span => transacted_once rfl (fun _ _ => Exists.intro _) ?_
  refine ⟨commits_other (by simp), fun a => ⟨unsettled_asked rfl, ?_⟩⟩
  rintro xs rfl
  exact ⟨_, _, rfl, rfl⟩

theorem unsubscribe_once : (unsubscribe d k).Obeys ((Request.unsubscribe k).Commits d)
    (Once ((Request.unsubscribe k).Ready d)) [] := by
  refine observed_once fun span => obeys_bind.2 (obeys_validate (fun _ => unsettled_one rfl) ?_)
  refine obeys_bind.2 (obeys_attempt.2 (obeys_mono
    (Q := Once ((Request.unsubscribe k).Ready d)) ?_ ?_))
  · intro p a hp
    refine ⟨commits_other (by simp), fun _ => obeys_bind.2 (obeys_ofExcept.2 ?_)⟩
    have hp := once_snoc (x := ⟨.evict k, ()⟩) rfl hp
    cases a with
    | error f => exact hp
    | ok _ => exact ⟨commits_told_to rfl, fun _ => once_snoc rfl hp⟩
  refine transacted_once rfl (fun _ _ => Exists.intro _) (obeys_bind.2 ⟨commits_other (by simp), ?_⟩)
  rintro (f | s)
  · exact ⟨unsettled_asked rfl, nofun⟩
  · exact required_once (unsettled_asked rfl) fun hs => ⟨_, _, rfl, s, hs, rfl⟩

/-- A call that is one transaction is committed only when it is ready, and then gives what it is
ready to give. -/
theorem operation_settles (r : Request) : (r.operation d).Obeys
    (fun p e => r.registers → r.Commits d p e) (r.Settles d) [] := by
  have hone : r.registers = false → (r.operation d).Obeys
      (fun p e => r.registers → r.Commits d p e) (r.Settles d) [] := fun hr =>
    Operation.obeys_all (fun _ _ => by simp [hr]) fun _ _ => by simp [Request.Settles, hr]
  have hmore : (r.operation d).Obeys (r.Commits d) (Once (r.Ready d)) [] → (r.operation d).Obeys
      (fun p e => r.registers → r.Commits d p e) (r.Settles d) [] := fun h =>
    Operation.obeys_imp (fun _ _ he _ => he) (Operation.obeys_mono (fun _ _ ha _ => ha) h)
  cases r with
  | publish m => exact hmore publish_once
  | acknowledge k i kind =>
    cases kind with
    | standard => exact hmore acknowledge_once
    | unmatched => exact hone rfl
  | subscribe info b => exact hmore subscribe_once
  | lookup k => exact hmore lookup_once
  | subscriptions => exact hmore subscriptions_once
  | unsubscribe k => exact hmore unsubscribe_once
  | _ => exact hone rfl

end

/-- What a call was answered, if this is an answer to it. -/
def Event.heard? (t : Thread) (n : Nat) : Event → Option Exchange
  | .ask u m _ x => if u = t ∧ m = n then some x else none
  | _ => none

/-- What a call was answered in a trace. -/
def heard (t : Thread) (n : Nat) (tr : List Event) : List Exchange := tr.filterMap (·.heard? t n)

/-- What a trace tells of a call in progress: that it was made, and all that it was answered. -/
structure Frame.Told (tr : List Event) (t : Thread) (f : Frame) : Prop where
  started : .start t f.number f.request ∈ tr
  heard : heard t f.number tr = f.past
  request : ∀ r x, .ask t f.number r x ∈ tr → r = f.request

/-- A trace tells of all calls in progress, and keeps them apart by their numbers. -/
structure Traced (tr : List Event) (s : System) : Prop where
  asked : ∀ t n r x, .ask t n r x ∈ tr → n < s.count
  ordered : ∀ t, (s.stack t).Pairwise fun f g => g.number < f.number
  frames : ∀ t, ∀ f ∈ s.stack t, f.Told tr t

section

variable {t u : Thread} {n : Nat} {s s' : System} {tr : List Event} {ev : Event} {f : Frame}
  {r : Request}
  {past : List Exchange} {x : Exchange}

/-- What every operation keeps to, every call in progress keeps to. -/
theorem obeys_run {P : Request → List Exchange → Effect → Prop}
    {Q : (r : Request) → List Exchange → Except Failure r.Result → Prop} (hs : s.Sound)
    (hop : ∀ r : Request, (r.operation s.host.destination).Obeys (P r) (Q r) [])
    (h₀ : ∀ t, ∀ f ∈ s.stack t, f.rest.Obeys (P f.request) (Q f.request) f.past)
    (h : Run Step s tr s') :
    ∀ t, ∀ f ∈ s'.stack t, f.rest.Obeys (P f.request) (Q f.request) f.past := by
  induction h with
  | nil => exact h₀
  | @snoc s₁ s₂ tr ev h he ih =>
    intro t f hf
    have hd := destination_run hs h
    cases he with
    | start r =>
      rcases mem_setStack hf with ⟨rfl, rfl⟩ | ⟨rfl, hf⟩ | ⟨-, hf⟩
      · rw [hd]
        exact hop r
      · exact ih _ f hf
      · exact ih _ f hf
    | @ask _ n r past e next below a _ hst =>
      rcases mem_setStack hf with ⟨rfl, rfl⟩ | hother
      · exact (ih t ⟨n, r, past, .perform e next⟩ (by rw [hst]; exact List.mem_cons_self)).2 a
      · exact ih t f (mem_of_other hst hother)
    | finish hst => exact ih t f (mem_of_finished hst hf)
    | disturb => exact ih t f hf

theorem heard_snoc : heard t n (tr ++ [ev]) = heard t n tr ++ (ev.heard? t n).toList := by
  simp only [heard, List.filterMap_append]
  cases h : ev.heard? t n <;> simp [h]

theorem heard_other (h : ev.heard? t n = none) : heard t n (tr ++ [ev]) = heard t n tr := by
  rw [heard_snoc, h]
  exact List.append_nil _

theorem heard_fresh (h : ∀ r x, .ask t n r x ∉ tr) : heard t n tr = [] := by
  refine List.filterMap_eq_nil_iff.2 fun ev hev => ?_
  cases ev with
  | ask u m r x =>
    refine if_neg ?_
    rintro ⟨rfl, rfl⟩
    exact h r x hev
  | _ => rfl

theorem heard?_eq_some (h : ev.heard? t n = some x) : ∃ r, ev = .ask t n r x := by
  cases ev with
  | ask u m r y =>
    simp only [Event.heard?] at h
    split at h
    · rename_i hum
      obtain ⟨rfl, rfl⟩ := hum
      cases h
      exact ⟨r, rfl⟩
    · cases h
  | _ => cases h

theorem told_kept (hf : f.Told tr t) (he : ∀ r x, ev ≠ .ask t f.number r x) :
    f.Told (tr ++ [ev]) t where
  started := List.mem_append_left _ hf.started
  heard := by
    refine (heard_other ?_).trans hf.heard
    cases hev : ev.heard? t f.number with
    | none => rfl
    | some x =>
      obtain ⟨r, hr⟩ := heard?_eq_some hev
      exact absurd hr (he r x)
  request r x hm := by
    rcases List.mem_append.1 hm with hm | hm
    · exact hf.request r x hm
    · exact absurd (List.mem_singleton.1 hm).symm (he r x)

theorem told_started {rest : Operation (Except Failure r.Result)} (h : ∀ r x, .ask t n r x ∉ tr) :
    (Frame.mk n r [] rest).Told (tr ++ [.start t n r]) t where
  started := by simp
  heard := (heard_other rfl).trans (heard_fresh h)
  request r' x hm := by
    rcases List.mem_append.1 hm with hm | hm
    · exact absurd hm (h r' x)
    · cases List.mem_singleton.1 hm

theorem told_answered {rest rest' : Operation (Except Failure r.Result)}
    (h : (Frame.mk n r past rest).Told tr t) :
    (Frame.mk n r (past ++ [x]) rest').Told (tr ++ [.ask t n r x]) t where
  started := List.mem_append_left _ h.started
  heard := by
    have hev : (Event.ask t n r x).heard? t n = some x := by simp [Event.heard?]
    rw [heard_snoc, hev]
    exact congrArg (· ++ [x]) h.heard
  request r' y hm := by
    rcases List.mem_append.1 hm with hm | hm
    · exact h.request r' y hm
    · cases List.mem_singleton.1 hm
      rfl

theorem traced_step (hs : s.Sound) (ht : Traced tr s) (h : Step s ev s') :
    Traced (tr ++ [ev]) s' := by
  have hasked : ∀ t n r x, .ask t n r x ∈ tr ++ [ev] → ev = .ask t n r x ∨ n < s.count :=
    fun t n r x hm => (List.mem_append.1 hm).symm.imp (fun hm => (List.mem_singleton.1 hm).symm)
      (ht.asked t n r x)
  cases h with
  | @start t r hl =>
    have hfresh : ∀ r x, .ask t s.count r x ∉ tr := fun r x hm =>
      absurd (ht.asked t _ r x hm) (Nat.lt_irrefl _)
    refine ⟨fun t n r x hm => ?_, fun u => ?_, fun u f hf => ?_⟩
    · exact Nat.lt_succ_of_lt ((hasked t n r x hm).resolve_left fun he => by cases he)
    · simp only [System.setStack]
      split
      · exact List.pairwise_cons.2 ⟨hs.numbered t, ht.ordered t⟩
      · exact ht.ordered u
    · rcases mem_setStack hf with ⟨rfl, rfl⟩ | ⟨rfl, hf⟩ | ⟨-, hf⟩
      · exact told_started hfresh
      · exact told_kept (ht.frames _ f hf) (by simp)
      · exact told_kept (ht.frames _ f hf) (by simp)
  | @ask t n r past e next below a _ hst =>
    have hmem : Frame.mk n r past (.perform e next) ∈ s.stack t := by
      rw [hst]; exact List.mem_cons_self
    have ho := ht.ordered t
    rw [hst, List.pairwise_cons] at ho
    refine ⟨fun t' n' r' x hm => ?_, fun u => ?_, fun u f hf => ?_⟩
    · rcases hasked t' n' r' x hm with he | hlt
      · cases he
        exact hs.numbered t _ hmem
      · exact hlt
    · simp only [System.setStack]
      split
      · exact List.pairwise_cons.2 ho
      · exact ht.ordered u
    · rcases mem_setStack hf with ⟨rfl, rfl⟩ | hother
      · exact told_answered (ht.frames u _ hmem)
      · refine told_kept (ht.frames u f (mem_of_other hst hother)) fun r' x he => ?_
        cases he
        rcases hother with ⟨-, hb⟩ | ⟨hu, -⟩
        · exact absurd (ho.1 f hb) (Nat.lt_irrefl _)
        · exact hu rfl
  | @finish t n r past a below hst =>
    have ho := ht.ordered t
    rw [hst, List.pairwise_cons] at ho
    refine ⟨fun t n r x hm => (hasked t n r x hm).resolve_left (fun he => by cases he), fun u => ?_,
      fun u f hf => told_kept (ht.frames u f (mem_of_finished hst hf)) (by simp)⟩
    simp only [System.setStack]
    split
    · exact ho.2
    · exact ht.ordered u
  | disturb =>
    exact ⟨fun t n r x hm => (hasked t n r x hm).resolve_left (fun he => by cases he), ht.ordered,
      fun u f hf => told_kept (ht.frames u f hf) (by simp)⟩

theorem traced_run (hs : s.Opened) (h : Run Step s tr s') : Traced tr s' := by
  induction h with
  | nil => exact ⟨by simp, by simp [hs.stack], by simp [hs.stack]⟩
  | snoc h he ih => exact traced_step (sound_run (sound_opened hs) h) ih he

/-- An answer that a call was given was given at one point of the run, behind its start. -/
theorem answered_at {s₀ : System} {q rest : List Exchange} (h₀ : s₀.Opened) (h : Run Step s₀ tr s)
    (hf : f ∈ s.stack t) (hp : f.past = q ++ x :: rest) :
    ∃ tr₁ tr₂ s₁ s₂ next below, tr = tr₁ ++ .ask t f.number f.request x :: tr₂ ∧
      Run Step s₀ tr₁ s₁ ∧ Step s₁ (.ask t f.number f.request x) s₂ ∧
      s₁.stack t = ⟨f.number, f.request, q, .perform x.effect next⟩ :: below ∧
      heard t f.number tr₁ = q ∧ heard t f.number tr₂ = rest := by
  have hft := (traced_run h₀ h).frames t f hf
  obtain ⟨l, m, rfl, hl, hm⟩ := List.filterMap_eq_append_iff.1 (hft.heard.trans hp)
  obtain ⟨m₁, ev, m₂, rfl, hnone, hev, hrest⟩ := List.filterMap_eq_cons_iff.1 hm
  obtain ⟨r, rfl⟩ := heard?_eq_some hev
  obtain rfl : r = f.request := hft.request r x (by simp)
  have hq : heard t f.number (l ++ m₁) = q := by
    rw [heard, List.filterMap_append, hl, List.filterMap_eq_nil_iff.2 hnone, List.append_nil]
  rw [← List.append_assoc, List.append_cons] at h
  obtain ⟨s₂, hleft, -⟩ := run_append h
  obtain ⟨s₁, hbefore, he⟩ := run_snoc hleft
  cases he with
  | @ask _ _ _ past e next below a host hst hr =>
    have hpast := ((traced_run h₀ hbefore).frames t _ (by rw [hst]; exact List.mem_cons_self)).heard
    obtain rfl : past = q := hpast.symm.trans hq
    exact ⟨l ++ m₁, m₂, s₁, _, next, below, by simp, hbefore, .ask hst hr, hst, hq, hrest⟩

theorem not_committing (h : Unsettled (heard t n tr)) : .committing t n r ∉ tr := by
  intro hm
  have hev : (Event.committing t n r).heard? t n = some ⟨.commit, .ok ()⟩ := by
    simp [Event.heard?, Event.committing]
  exact absurd (h _ (List.mem_filterMap.2 ⟨_, hm, hev⟩)) (by simp [Exchange.commits])

theorem settles_run {s₀ : System} (h₀ : s₀.Opened) (h : Run Step s₀ tr s) (hf : f ∈ s.stack t) :
    f.rest.Obeys (fun p e => f.request.registers → f.request.Commits s₀.host.destination p e)
      (f.request.Settles s₀.host.destination) f.past :=
  obeys_run (P := fun r p e => r.registers → r.Commits s₀.host.destination p e)
    (Q := fun r => r.Settles s₀.host.destination) (sound_opened h₀) operation_settles
    (by simp [h₀.stack]) h t f hf

/-- A call that is one transaction and succeeds was ready to give its result at one point behind its
start. There it was committed, and nowhere else. -/
theorem committed_at {s₀ : System} {v : f.request.Result} (h₀ : s₀.Opened)
    (h : Run Step s₀ tr s) (hf : f ∈ s.stack t) (hr : f.request.registers)
    (hd : f.rest = .done (.ok v)) : ∃ tr₁ tr₂ s₁ s₂ p next below,
      tr = tr₁ ++ .committing t f.number f.request :: tr₂ ∧ Run Step s₀ tr₁ s₁ ∧
      Step s₁ (.committing t f.number f.request) s₂ ∧
      s₁.stack t = ⟨f.number, f.request, p, .perform .commit next⟩ :: below ∧
      f.request.Ready s₀.host.destination p v ∧ .start t f.number f.request ∈ tr₁ ∧
      .committing t f.number f.request ∉ tr₁ ∧ .committing t f.number f.request ∉ tr₂ := by
  have hset := settles_run h₀ h hf
  rw [hd] at hset
  obtain ⟨p, after, hpast, hready, hp, hafter⟩ := hset hr
  obtain ⟨tr₁, tr₂, s₁, s₂, next, below, htr, hrun, hstep, hst, hbefore, hbehind⟩ :=
    answered_at h₀ h hf hpast
  have hstart := ((traced_run h₀ hrun).frames t _ (by rw [hst]; exact List.mem_cons_self)).started
  exact ⟨tr₁, tr₂, s₁, s₂, p, next, below, htr, hrun, hstep, hst, hready, hstart,
    not_committing (hbefore ▸ hp), not_committing (hbehind ▸ hafter)⟩

/-- A call that is one transaction and fails was not committed. -/
theorem not_committed {s₀ : System} {e : Failure} (h₀ : s₀.Opened) (h : Run Step s₀ tr s)
    (hf : f ∈ s.stack t) (hr : f.request.registers) (hd : f.rest = .done (.error e)) :
    .committing t f.number f.request ∉ tr := by
  have hset := settles_run h₀ h hf
  rw [hd] at hset
  exact not_committing (((traced_run h₀ h).frames t f hf).heard ▸ hset hr)

end

end DurableTopic.Store

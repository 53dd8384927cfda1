import DurableTopic.Proofs.Commits
import DurableTopic.Proofs.Pending
import DurableTopic.Proofs.Play
/-! What goes on while a pass runs. Its listener may make calls before it answers; what these ask of the
cursor takes effect when the pass ends, and what the pass offers was read before the first of them. -/
namespace DurableTopic.Store

open Cursor (Thread Cache)
open Repository (Ledger Scan Trouble)

/-- The messages above a position as they were read: the first of them, and all up to the limit unless
the read failed. None of them is below the one before. -/
structure Snapshot (h : Host) (k : SubscriberKey) (limit : Nat) (w : Watermark) (scan : Scan) :
    Prop where
  first : scan.rows <+: h.backend.repository.first limit (h.ledger.unread k w)
  unread : scan.rows <+: h.ledger.unread k w
  whole : troubleOf scan = none → scan.rows = h.backend.repository.first limit (h.ledger.unread k w)
  ascending : ascending w scan.rows = scan.rows

/-- What a call asks for: a pass needs a client, and is orderly. -/
def Request.Behaves : Request → List Exchange → Effect → Prop
  | recoverNext k .., p, e => k.client.isEmpty = false ∧ Orderly p e
  | _, _, _ => True

/-- How a call ends: a pass keeps to its course, and who is to give up a cursor has done so. -/
def Request.Closes (d : String) : (r : Request) → List Exchange → Except Failure r.Result → Prop
  | recoverNext k limit mode, p, a => Course d k limit mode (minutes p) a
  | resetBatching k, p, _ | unsubscribe k, p, _ =>
    k.client.isEmpty = false → ∃ x ∈ p, x.givesUp k
  | _, _, _ => True

section

variable {k : SubscriberKey} {d : String} {limit : Nat} {mode : Mode} {tr : List Event}

open Op

theorem recoverNext_behaves : (recoverNext d k limit mode).Obeys
    (Request.Behaves (.recoverNext k limit mode)) (Request.Closes d (.recoverNext k limit mode)) [] := by
  cases hk : k.client.isEmpty with
  | false => exact Operation.obeys_imp (fun _ _ he => ⟨hk, he⟩) recoverNext_minutes
  | true =>
    rw [recoverNext, validate, if_pos hk]
    exact .refused hk

theorem resetBatching_closes : (resetBatching k).Obeys (Request.Behaves (.resetBatching k))
    (Request.Closes d (.resetBatching k)) [] :=
  ⟨trivial, fun _ => ⟨trivial, fun _ _ => ⟨⟨.reset k, ()⟩, by simp, by simp [Exchange.givesUp]⟩⟩⟩

/-- A cursor is given up also when the deletion failed. -/
theorem unsubscribe_closes : (unsubscribe d k).Obeys (Request.Behaves (.unsubscribe k))
    (Request.Closes d (.unsubscribe k)) [] := by
  have hsnoc : ∀ p x (a : Except Failure Unit), Request.Closes d (.unsubscribe k) p a →
      Request.Closes d (.unsubscribe k) (p ++ [x]) a := fun p x a hp hk =>
    (hp hk).imp fun _ ⟨hy, hu⟩ => ⟨List.mem_append_left _ hy, hu⟩
  refine obeys_observed (fun _ _ _ => trivial) (fun p x a _ => hsnoc p x a) fun span => ?_
  refine obeys_bind.2 (obeys_validate (fun he hk => absurd he (by simp [hk])) ?_)
  refine obeys_bind.2 (obeys_attempt.2 (obeys_mono (Q := fun _ _ => True) ?_
    (Operation.obeys_all (fun _ _ => trivial) fun _ _ => trivial)))
  intro p a _
  refine ⟨trivial, fun _ => obeys_bind.2 (obeys_ofExcept.2 ?_)⟩
  have hup : ∀ b, Request.Closes d (.unsubscribe k) (p ++ [⟨.evict k, ()⟩]) b := fun b _ =>
    ⟨⟨.evict k, ()⟩, by simp, by simp [Exchange.givesUp]⟩
  cases a with
  | error f => exact hup _
  | ok _ => exact ⟨trivial, fun _ => hsnoc _ _ (.ok ()) (hup _)⟩

theorem operation_behaves (r : Request) : (r.operation d).Obeys r.Behaves (r.Closes d) [] := by
  cases r with
  | recoverNext => exact recoverNext_behaves
  | resetBatching => exact resetBatching_closes
  | unsubscribe => exact unsubscribe_closes
  | _ => exact Operation.obeys_all (fun _ _ => trivial) fun _ _ => trivial

/-- What all calls in progress keep to. -/
theorem behaves_run {s₀ s : System} (h₀ : s₀.Opened) (h : Run Step s₀ tr s) :
    ∀ t, ∀ f ∈ s.stack t, f.rest.Obeys f.request.Behaves (f.request.Closes s₀.host.destination) f.past :=
  obeys_run (P := Request.Behaves) (Q := Request.Closes s₀.host.destination) (sound_opened h₀)
    operation_behaves (by simp [h₀.stack]) h

end

section

variable {k : SubscriberKey} {r : Row} {rows : List Row} {w : Watermark} {l : Ledger}
  {d : String} {b : Repository.Faulty}

/-- Messages that are read in order are all above the ones before. -/
theorem ascending_above (h : l.Sound) (hr : rows <+: l.above w) : ascending w rows = rows := by
  induction rows generalizing w with
  | nil => rfl
  | cons r rows ih =>
    have hm : r ∈ l.above w := hr.subset List.mem_cons_self
    have hw : r.mark.isAhead w := (List.mem_filter.1 hm).2
    rw [ascending, if_pos hw, ih (Ledger.above_cons h hr)]

/-- A fault of a scan is seen in its answer, and leaves the first of what would be read. -/
theorem seen_scan {rows : List Row} {f : Option Repository.Fault}
    (hf : ∀ g s, f = some g → g.trouble = .report s → s.isOk = false) :
    (Scan.seen { rows } false f).rows <+: rows ∧
      (troubleOf (Scan.seen { rows } false f) = none → (Scan.seen { rows } false f).rows = rows) := by
  refine ⟨Repository.Faulty.seen_prefix, fun h => ?_⟩
  cases f with
  | none => rfl
  | some g =>
    cases ht : g.trouble with
    | report s =>
      have hs := hf g s rfl ht
      simp [troubleOf, Scan.seen, ht, Trouble.of?, Trouble.ofStatus?, hs] at h
    | raise e => simp [troubleOf, Scan.seen, ht, Trouble.of?] at h

theorem perform_scan {base : Ledger} {m : Nat} (h : b.Sound d) (ht : b.repository.Tidy d)
    (ha : b.repository.stand d = .active base) :
    let a : Scan := (b.perform (.scanAfter d k w m)).1
    a.rows <+: b.repository.first m (base.unread k w) ∧
      (troubleOf a = none → a.rows = b.repository.first m (base.unread k w)) := by
  obtain ⟨hsame, hh, hf⟩ := Repository.Faulty.noting_spec h.faults
    (Repository.Call.scanAfter d k w m).point (Repository.Call.scanAfter d k w m).note
  obtain ⟨-, -, l, -, hy, -⟩ :=
    Repository.perform_yields (c := .scanAfter d k w m) ht h.repository ha rfl trivial
  unfold Repository.Faulty.perform
  generalize b.noting _ _ = q at hsame hh hf
  obtain ⟨f, b'⟩ := q
  simp only at hsame hh hf
  simp only [Repository.Faulty.forward_eq hh, hh.twice, hsame]
  rw [hy]
  exact seen_scan hf

end

/-- A pass of a thread goes on, and on top of it are the calls of its listener that are in progress.
Nothing else moves. -/
structure Nest (k : SubscriberKey) (t : Thread) (limit : Nat) (mode : Mode) (s₀ s : System) (f : Frame)
    (nested : List Frame) : Prop where
  stack : s.stack t = nested ++ f :: s₀.stack t
  elsewhere : ∀ u, u ≠ t → s.stack u = s₀.stack u
  number : f.number = s₀.count
  request : f.request = .recoverNext k limit mode
  aside : ∀ g ∈ nested, g.request.batches k = false
  count : s₀.count < s.count

/-- What may happen while a pass goes on: it is answered, or its listener makes a call, which is
answered and returns. -/
inductive Going (t : Thread) (s : System) :
    Frame → List Frame → Event → System → Frame → List Frame → Prop where
  | own {n : Nat} {r : Request} {past : List Exchange} {e : Effect}
      {next : e.Reply → Operation (Except Failure r.Result)} {below : List Frame} {a : e.Reply}
      {host : Host} (hst : s.stack t = ⟨n, r, past, .perform e next⟩ :: below)
      (hr : Replies t s.host e a host) :
      Going t s ⟨n, r, past, .perform e next⟩ [] (.ask t n r ⟨e, a⟩)
        { s.setStack t (⟨n, r, past ++ [⟨e, a⟩], next a⟩ :: below) with host }
        ⟨n, r, past ++ [⟨e, a⟩], next a⟩ []
  | inner {f : Frame} {rest : List Frame} {n : Nat} {r : Request} {past : List Exchange} {e : Effect}
      {next : e.Reply → Operation (Except Failure r.Result)} {below : List Frame} {a : e.Reply}
      {host : Host} (hst : s.stack t = ⟨n, r, past, .perform e next⟩ :: below)
      (hr : Replies t s.host e a host) (hf : f ∈ below) :
      Going t s f (⟨n, r, past, .perform e next⟩ :: rest) (.ask t n r ⟨e, a⟩)
        { s.setStack t (⟨n, r, past ++ [⟨e, a⟩], next a⟩ :: below) with host }
        f (⟨n, r, past ++ [⟨e, a⟩], next a⟩ :: rest)
  | called {f : Frame} {nested : List Frame} {r : Request}
      (hl : nested = [] → f.atListener) :
      Going t s f nested (.start t s.count r)
        { s.setStack t (⟨s.count, r, [], r.operation s.host.destination⟩ :: s.stack t) with
          count := s.count + 1 }
        f (⟨s.count, r, [], r.operation s.host.destination⟩ :: nested)
  | returned {f : Frame} {rest : List Frame} {n : Nat} {r : Request} {past : List Exchange}
      {a : Except Failure r.Result} {below : List Frame}
      (hst : s.stack t = ⟨n, r, past, .done a⟩ :: below) (hf : f ∈ below) :
      Going t s f (⟨n, r, past, .done a⟩ :: rest) (.finish t n) (s.setStack t below) f rest
  | disturbed {f : Frame} {nested : List Frame} {faults : Repository.Faults} (h : faults.Honest) :
      Going t s f nested .disturb { s with host.backend.faults := faults } f nested

/-- A pass is over. -/
structure Over (t : Thread) (s₀ s : System) : Prop where
  count : s₀.count < s.count
  gone : ∀ g ∈ s.stack t, g.number ≠ s₀.count

section

variable {k : SubscriberKey} {t : Thread} {limit : Nat} {mode : Mode} {s₀ s s' : System}
  {f f' g : Frame} {nested nested' : List Frame} {ev : Event} {tr : List Event}

theorem over_step (h : Over t s₀ s) (he : Step s ev s') : Over t s₀ s' := by
  cases he with
  | start r =>
    refine ⟨Nat.lt_succ_of_lt h.count, fun g hg => ?_⟩
    rcases mem_setStack hg with ⟨rfl, rfl⟩ | ⟨rfl, hg⟩ | ⟨-, hg⟩
    · exact Nat.ne_of_gt h.count
    · exact h.gone g hg
    · exact h.gone g hg
  | @ask u n r past e next below a _ hst =>
    refine ⟨h.count, fun g hg => ?_⟩
    rcases mem_setStack hg with ⟨rfl, rfl⟩ | hother
    · exact h.gone ⟨n, r, past, .perform e next⟩ (mem_top hst)
    · exact h.gone g (mem_of_other hst hother)
  | finish hst => exact ⟨h.count, fun g hg => h.gone g (mem_of_finished hst hg)⟩
  | disturb => exact ⟨h.count, h.gone⟩

theorem over_run (h : Over t s₀ s) (hr : Run Step s tr s') : Over t s₀ s' := by
  induction hr with
  | nil => exact h
  | snoc _ he ih => exact over_step ih he

/-- A pass goes on in one of these ways, or is over. -/
theorem nest_step (h₀ : s₀.Sound) (h : Nest k t limit mode s₀ s f nested) (he : Step s ev s')
    (hown : ev.thread? = none ∨ ev.thread? = some t)
    (hcall : ∀ r, ev.call? = some r → r.batches k = false) :
    (∃ f' nested', Going t s f nested ev s' f' nested' ∧ Nest k t limit mode s₀ s' f' nested') ∨
      Over t s₀ s' := by
  cases he with
  | @start u r hl =>
    obtain rfl : u = t := by simpa [Event.thread?] using hown
    refine Or.inl ⟨f, _, .called fun hn => hl f ?_, ?_, fun v hv => ?_, h.number, h.request, ?_, ?_⟩
    · rw [h.stack, hn]
      rfl
    · simp [System.setStack, h.stack]
    · simpa [System.setStack, hv] using h.elsewhere v hv
    · exact List.forall_mem_cons.2 ⟨hcall r rfl, h.aside⟩
    · exact Nat.lt_succ_of_lt h.count
  | @ask u n r past e next below a host hst hr =>
    obtain rfl : u = t := by simpa [Event.thread?] using hown
    have hstack := h.stack
    rw [hst] at hstack
    cases nested with
    | nil =>
      obtain ⟨rfl, rfl⟩ := List.cons.inj hstack
      refine Or.inl ⟨_, _, .own hst hr, ?_, fun v hv => ?_, h.number, h.request, h.aside, h.count⟩
      · simp [System.setStack]
      · simpa [System.setStack, hv] using h.elsewhere v hv
    | cons g rest =>
      obtain ⟨rfl, rfl⟩ := List.cons.inj hstack
      refine Or.inl ⟨_, _, .inner hst hr (by simp), ?_, fun v hv => ?_, h.number, h.request, ?_, h.count⟩
      · simp [System.setStack]
      · simpa [System.setStack, hv] using h.elsewhere v hv
      · exact List.forall_mem_cons.2 (List.forall_mem_cons.1 h.aside)
  | @finish u n r past a below hst =>
    obtain rfl : u = t := by simpa [Event.thread?] using hown
    have hstack := h.stack
    rw [hst] at hstack
    cases nested with
    | nil =>
      obtain ⟨rfl, rfl⟩ := List.cons.inj hstack
      refine Or.inr ⟨h.count, fun g hg => ?_⟩
      simp only [System.setStack, if_true] at hg
      exact Nat.ne_of_lt (h₀.numbered u g hg)
    | cons g rest =>
      obtain ⟨rfl, rfl⟩ := List.cons.inj hstack
      refine Or.inl ⟨_, _, .returned hst (by simp), ?_, fun v hv => ?_, h.number, h.request, ?_, h.count⟩
      · simp [System.setStack]
      · simpa [System.setStack, hv] using h.elsewhere v hv
      · exact (List.forall_mem_cons.1 h.aside).2
  | disturb hf =>
    exact Or.inl ⟨f, nested, .disturbed hf, h.stack, h.elsewhere, h.number, h.request, h.aside,
      h.count⟩

end

/-- What a pass loaded and read is what there was when it began. Before its first question nothing
changes. -/
structure Looked (k : SubscriberKey) (h₀ h : Host) (f : Frame) : Prop where
  quiet : (minutes f.past).callbacks = [] → f.atListener = false → h.ledger = h₀.ledger
  loads : ∀ w ∈ (minutes f.past).loads, w = h₀.ledger.acked k
  scans : ∀ x ∈ (minutes f.past).scans, Snapshot h₀ k x.2.1 x.1 x.2.2

/-- What the calls of a listener ask for is asked for before they return. -/
structure Answered (k : SubscriberKey) (tr : List Event) (nested : List Frame) : Prop where
  made : ∀ g ∈ nested, g.request ∈ calls tr
  caused : givenUp k tr → (calls tr).any (·.forgets k)
  told : ∀ r ∈ calls tr, r.forgets k → givenUp k tr ∨ ∃ g ∈ nested, g.request.forgets k
  past : ∀ g ∈ nested, ∀ x ∈ g.past, x.givesUp k → givenUp k tr

/-- How things are while a pass goes on. -/
structure Amid (k : SubscriberKey) (t : Thread) (limit : Nat) (mode : Mode) (o : Option Watermark)
    (s₀ : System) (tr : List Event) (s : System) (f : Frame) (nested : List Frame) : Prop where
  nest : Nest k t limit mode s₀ s f nested
  slotted : Slotted k o (givenUp k tr) f s.host.cursors
  looked : Looked k s₀.host s.host f
  answered : Answered k tr nested

section

variable {k : SubscriberKey} {t u : Thread} {limit : Nat} {mode : Mode} {s₀ s s' : System}
  {f f' g : Frame} {nested nested' : List Frame} {ev : Event} {tr : List Event} {n : Nat} {r : Request}
  {past : List Exchange} {e : Effect} {a : e.Reply} {h₀ h' : Host} {o : Option Watermark}
  {next : e.Reply → Operation (Except Failure r.Result)} {below : List Frame}

/-- Only a call that gives up the cursor of a subscriber asks for that. -/
theorem forgets_of_ask (hs : s.Sound) (hst : s.stack t = ⟨n, r, past, .perform e next⟩ :: below)
    (he : (Exchange.mk e a).givesUp k) : r.forgets k := by
  have hf := hs.frames t _ (mem_top hst)
  have hperm := hf.follows.1
  cases e with
  | reset j =>
    rw [show r = .resetBatching j from hperm.2]
    simpa [Exchange.givesUp, Request.forgets] using he
  | evict j =>
    rw [show r = .unsubscribe j from hperm.2]
    simpa [Exchange.givesUp, Request.forgets] using he
  | _ => cases he

theorem not_forgets_of_redelivers {r : Request} {j : SubscriberKey} (h : r.redelivers j) :
    r.forgets k = false := by
  cases r <;> first | rfl | cases h

/-- A call that only reads leaves what is committed. -/
theorem ledger_of_reader (hs : s.Sound) (hst : s.stack t = ⟨n, r, past, .perform e next⟩ :: below)
    (hr : Replies t s.host e a h') (hread : r.redelivers k) : h'.ledger = s.host.ledger := by
  rcases ledger_step hs (.ask hst hr) with hl | ⟨u, g, -, heq, -, hev⟩
  · exact hl
  · obtain ⟨-, -, hreq, -⟩ : t = u ∧ n = g.number ∧ r = g.request ∧
        Exchange.mk e a = ⟨.commit, .ok ()⟩ := by simpa using heq
    exact Ledger.evolves_reads hev (hreq ▸ hread)

/-- A call that only reads is answered what is committed. -/
theorem answers_committed {c : Repository.Call} {b : c.Reply}
    {next : c.Reply → Operation (Except Failure r.Result)} (hs : s.Sound)
    (hst : s.stack t = ⟨n, r, past, .perform (.call c) next⟩ :: below)
    (hr : Replies t s.host (.call c) b h') (hread : r.redelivers k) :
    s.host.stand = .active s.host.ledger ∧
      ∃ l, s.host.ledger.Answers s.host.spell c b l := by
  have hf := hs.frames t _ (mem_top hst)
  obtain ⟨l, hl, hev⟩ := hf.active hf.follows.1.1
  obtain rfl : l = s.host.ledger := Ledger.evolves_reads hev hread
  obtain ⟨-, -, l₁, l₂, hl₁, -, ha⟩ := (ask_granted hs hst hr).2.2.2
  obtain rfl : s.host.ledger = l₁ := by simpa [hl] using hl₁
  exact ⟨hl, l₂, ha⟩

theorem snapshot_of_scan {w : Watermark} {m : Nat} {b : Scan}
    {next : Scan → Operation (Except Failure r.Result)} (hs : s.Sound) (hrec : s.Recorded)
    (hst : s.stack t =
      ⟨n, r, past, .perform (.call (.scanAfter s.host.destination k w m)) next⟩ :: below)
    (hr : Replies t s.host (.call (.scanAfter s.host.destination k w m)) b h')
    (hread : r.redelivers k) : Snapshot s.host k m w b := by
  obtain ⟨hl, l, -, hunread⟩ := answers_committed hs hst hr hread
  have hscan := perform_scan (k := k) (w := w) (m := m) hs.backend hrec.tidy hl
  have hb : (s.host.backend.perform (.scanAfter s.host.destination k w m)).1 = b := by
    cases hr with
    | host _ _ hb => exact congrArg Prod.fst (Option.some.inj hb)
  rw [hb] at hscan
  refine ⟨hscan.1, hunread, hscan.2, ascending_above ?_ (Ledger.above_of_unread hunread)⟩
  exact Repository.committed_sound hs.backend.repository

theorem snapshot_same {h h₀ : Host} {w : Watermark} {m : Nat} {b : Scan} (h' : Snapshot h k m w b)
    (hl : h.ledger = h₀.ledger) (hf : h.backend.repository.first = h₀.backend.repository.first) :
    Snapshot h₀ k m w b := by
  obtain ⟨hfirst, hunread, hwhole, hasc⟩ := h'
  rw [hl, hf] at hfirst hwhole
  exact ⟨hfirst, hl ▸ hunread, hwhole, hasc⟩

/-- What a pass is told by the repository is what was committed when it began. -/
theorem looked_call {c : Repository.Call} {b : c.Reply}
    {next : c.Reply → Operation (Except Failure r.Result)} (hs : s.Sound) (hrec : s.Recorded)
    (hst : s.stack t = ⟨n, r, past, .perform (.call c) next⟩ :: below)
    (hr : Replies t s.host (.call c) b h') (hb : r.batches k) (ho : (minutes past).callbacks = [])
    (hfirst : s.host.backend.repository.first = h₀.backend.repository.first)
    (h : Looked k h₀ s.host (Frame.mk n r past (.perform (.call c) next))) :
    (∀ w ∈ ((minutes past).next ⟨.call c, b⟩).loads, w = h₀.ledger.acked k) ∧
      ∀ x ∈ ((minutes past).next ⟨.call c, b⟩).scans, Snapshot h₀ k x.2.1 x.1 x.2.2 := by
  have hread := Request.redelivers_of_batches hb
  have hledger := h.quiet ho rfl
  obtain ⟨-, l, ha⟩ := answers_committed hs hst hr hread
  have hf := hs.frames t _ (mem_top hst)
  have hmay := hf.follows.1.2.1
  cases r <;> simp only [Request.batches, Bool.false_eq_true, decide_eq_true_eq] at hb
  subst hb
  cases c <;> simp only [Request.mayCall] at hmay
  case load =>
    obtain ⟨rfl, rfl⟩ := hmay
    cases b with
    | error f => exact ⟨h.loads, h.scans⟩
    | ok w =>
      refine ⟨fun v hv => ?_, h.scans⟩
      rcases List.mem_append.1 hv with hv | hv
      · exact h.loads v hv
      · rw [List.mem_singleton.1 hv, ← hledger]
        exact ha.2 w rfl
  case scanAfter w m =>
    obtain ⟨rfl, rfl⟩ := hmay
    have hsnap := snapshot_same (snapshot_of_scan hs hrec hst hr hread) hledger hfirst
    obtain ⟨ts, hts⟩ := Minutes.next_eq (m := minutes past)
      (x := ⟨.call (.scanAfter s.host.destination _ w m), b⟩)
    rw [hts]
    refine ⟨h.loads, fun x hx => ?_⟩
    rcases List.mem_append.1 hx with hx | hx
    · exact h.scans x hx
    · rw [List.mem_singleton.1 hx]
      exact hsnap

/-- A pass that was answered still knows nothing but what there was when it began. -/
theorem looked_own (hs : s.Sound) (hrec : s.Recorded)
    (hst : s.stack t = ⟨n, r, past, .perform e next⟩ :: below) (hr : Replies t s.host e a h')
    (hb : r.batches k) (ho : Orderly past e)
    (hfirst : s.host.backend.repository.first = h₀.backend.repository.first)
    (h : Looked k h₀ s.host (Frame.mk n r past (.perform e next))) :
    Looked k h₀ h' (Frame.mk n r (past ++ [⟨e, a⟩]) (next a)) := by
  have hl := ledger_of_reader hs hst hr (Request.redelivers_of_batches hb)
  have hreads : (∀ w ∈ ((minutes past).next ⟨e, a⟩).loads, w = h₀.ledger.acked k) ∧
      ∀ x ∈ ((minutes past).next ⟨e, a⟩).scans, Snapshot h₀ k x.2.1 x.1 x.2.2 := by
    by_cases hcall : ∀ c, e ≠ .call c
    · obtain ⟨hloads, hscans⟩ := Minutes.next_reads (m := minutes past) (a := a) hcall
      rw [hloads, hscans]
      exact ⟨h.loads, h.scans⟩
    · cases e with
      | call c => exact looked_call hs hrec hst hr hb ho hfirst h
      | _ => exact absurd (by simp) hcall
  constructor
  case quiet =>
    intro hc _
    rw [minutes_snoc] at hc
    obtain ⟨hc, he⟩ := Minutes.next_callbacks hc
    exact hl.trans (h.quiet hc he)
  case loads => exact minutes_snoc ▸ hreads.1
  case scans => exact minutes_snoc ▸ hreads.2

theorem calls_snoc : calls (tr ++ [ev]) = calls tr ++ ev.call?.toList := by
  simp only [calls, List.filterMap_append]
  cases h : ev.call? <;> simp [h]

/-- Nothing is asked for to give up a cursor, and no call is made or returns. -/
theorem answered_same (h : Answered k tr nested) (hc : ev.call? = none)
    (hu : ev.givesUp k = false) : Answered k (tr ++ [ev]) nested := by
  have hcalls : calls (tr ++ [ev]) = calls tr := by rw [calls_snoc, hc]; simp
  have hup : givenUp k (tr ++ [ev]) = givenUp k tr := givenUp_kept hu
  exact ⟨hcalls ▸ h.made, by rw [hcalls, hup]; exact h.caused, by rw [hcalls, hup]; exact h.told,
    hup ▸ h.past⟩

theorem answered_inner (h : Answered k tr (⟨n, r, past, .perform e next⟩ :: nested))
    (hf : (Exchange.mk e a).givesUp k → r.forgets k) :
    Answered k (tr ++ [.ask t n r ⟨e, a⟩]) (⟨n, r, past ++ [⟨e, a⟩], next a⟩ :: nested) := by
  have hcalls : calls (tr ++ [.ask t n r ⟨e, a⟩]) = calls tr := by
    rw [calls_snoc]
    exact List.append_nil _
  have hmade := List.forall_mem_cons.1 h.made
  have hpast := List.forall_mem_cons.1 h.past
  have hup : givenUp k tr → givenUp k (tr ++ [.ask t n r ⟨e, a⟩]) := fun hu => by
    rw [givenUp_snoc, hu, Bool.true_or]
  constructor
  case made =>
    rw [hcalls]
    exact List.forall_mem_cons.2 hmade
  case caused =>
    intro hu
    rw [givenUp_snoc, givesUp_ask, Bool.or_eq_true] at hu
    rw [hcalls]
    rcases hu with hu | hu
    · exact h.caused hu
    · exact List.any_eq_true.2 ⟨r, hmade.1, hf hu⟩
  case told =>
    rw [hcalls]
    intro q hq hforgets
    rcases h.told q hq hforgets with hu | ⟨g, hg, hgf⟩
    · exact Or.inl (hup hu)
    · rcases List.mem_cons.1 hg with rfl | hg
      · exact Or.inr ⟨_, List.mem_cons_self, hgf⟩
      · exact Or.inr ⟨g, List.mem_cons_of_mem _ hg, hgf⟩
  case past =>
    refine List.forall_mem_cons.2 ⟨fun x hx hxu => ?_, fun g hg x hx hxu => hup (hpast.2 g hg x hx hxu)⟩
    rcases List.mem_append.1 hx with hx | hx
    · exact hup (hpast.1 x hx hxu)
    · rw [givenUp_snoc, givesUp_ask, ← List.mem_singleton.1 hx, hxu, Bool.or_true]

theorem answered_called {rest : Operation (Except Failure r.Result)} (h : Answered k tr nested) :
    Answered k (tr ++ [.start t n r]) (⟨n, r, [], rest⟩ :: nested) := by
  have hcalls : calls (tr ++ [.start t n r]) = calls tr ++ [r] := calls_snoc
  have hup : givenUp k (tr ++ [.start t n r]) = givenUp k tr := givenUp_kept rfl
  constructor
  case made =>
    rw [hcalls]
    exact List.forall_mem_cons.2 ⟨by simp, fun g hg => List.mem_append_left _ (h.made g hg)⟩
  case caused =>
    rw [hup, hcalls, List.any_append]
    exact fun hu => by rw [h.caused hu, Bool.true_or]
  case told =>
    rw [hup, hcalls]
    intro q hq hforgets
    rcases List.mem_append.1 hq with hq | hq
    · exact (h.told q hq hforgets).imp id fun ⟨g, hg, hgf⟩ => ⟨g, List.mem_cons_of_mem _ hg, hgf⟩
    · exact Or.inr ⟨_, List.mem_cons_self, List.mem_singleton.1 hq ▸ hforgets⟩
  case past =>
    rw [hup]
    exact List.forall_mem_cons.2 ⟨by simp, h.past⟩

/-- Who is to give up a cursor has done so when it returns. -/
theorem answered_returned (h : Answered k tr (g :: nested))
    (hg : g.request.forgets k → ∃ x ∈ g.past, x.givesUp k) :
    Answered k (tr ++ [.finish t n]) nested := by
  refine answered_same ⟨(List.forall_mem_cons.1 h.made).2, h.caused, fun q hq hforgets => ?_,
    (List.forall_mem_cons.1 h.past).2⟩ rfl rfl
  rcases h.told q hq hforgets with hu | ⟨g', hg', hgf⟩
  · exact Or.inl hu
  · rcases List.mem_cons.1 hg' with rfl | hg'
    · obtain ⟨x, hx, hxu⟩ := hg hgf
      exact Or.inl (h.past _ List.mem_cons_self x hx hxu)
    · exact Or.inr ⟨g', hg', hgf⟩

/-- A call that is to give up a cursor and is done has done so. -/
theorem gaveUp_of_done {d : String} {x : Except Failure r.Result} (hk : k.client.isEmpty = false)
    (h : r.Closes d past x) (hf : r.forgets k) : ∃ x ∈ past, x.givesUp k := by
  cases r with
  | resetBatching j =>
    obtain rfl : j = k := by simpa [Request.forgets] using hf
    exact h hk
  | unsubscribe j =>
    obtain rfl : j = k := by simpa [Request.forgets] using hf
    exact h hk
  | _ => cases hf

/-- Only the pass itself has its request. -/
theorem pass_of_batches (hn : Nest k t limit mode s₀ s f nested)
    (h₀ : ∀ u, ∀ g ∈ s₀.stack u, g.request.batches k = false) (hg : g ∈ s.stack u)
    (hb : g.request.batches k) : g = f := by
  by_cases hu : u = t
  · subst hu
    rw [hn.stack] at hg
    rcases List.mem_append.1 hg with hg | hg
    · exact absurd hb (by simp [hn.aside g hg])
    · rcases List.mem_cons.1 hg with rfl | hg
      · rfl
      · exact absurd hb (by simp [h₀ u g hg])
  · rw [hn.elsewhere u hu] at hg
    exact absurd hb (by simp [h₀ u g hg])

/-- Before its listener answers, a pass has asked for nothing new. -/
theorem looked_waiting (h : Looked k h₀ s.host f) (hl : f.atListener) : Looked k h₀ h' f :=
  ⟨fun _ hn => absurd hl (by simp [hn]), h.loads, h.scans⟩

/-- While a pass goes on, whatever happens, things stay as they are while a pass goes on. -/
theorem amid_step {d : String} (h₀ : s₀.Sound)
    (hother : ∀ u, ∀ g ∈ s₀.stack u, g.request.batches k = false) (hs : s.Sound) (hrec : s.Recorded)
    (hbehaves : ∀ u, ∀ g ∈ s.stack u, g.rest.Obeys g.request.Behaves (g.request.Closes d) g.past)
    (hfirst : s.host.backend.repository.first = s₀.host.backend.repository.first)
    (h : Amid k t limit mode o s₀ tr s f nested) (he : Step s ev s')
    (hown : ev.thread? = none ∨ ev.thread? = some t)
    (hcall : ∀ r, ev.call? = some r → r.batches k = false) :
    (∃ f' nested', Amid k t limit mode o s₀ (tr ++ [ev]) s' f' nested') ∨ Over t s₀ s' := by
  obtain ⟨hnest, hslot, hlook, hans⟩ := h
  have hbatch : f.request.batches k := by simp [hnest.request, Request.batches]
  have hmem : f ∈ s.stack t := by rw [hnest.stack]; simp
  rcases nest_step h₀ hnest he hown hcall with ⟨f', nested', hgo, hnest'⟩ | hover
  case inr => exact Or.inr hover
  suffices hrest : Slotted k o (givenUp k (tr ++ [ev])) f' s'.host.cursors ∧
      Looked k s₀.host s'.host f' ∧ Answered k (tr ++ [ev]) nested' from
    Or.inl ⟨f', nested', hnest', hrest.1, hrest.2.1, hrest.2.2⟩
  cases hgo with
  | @own n r past e next below a host hst hr =>
    have hobeys := hbehaves t _ hmem
    have hreq : r = .recoverNext k limit mode := hnest.request
    have hbehaved : r.Behaves past e := hobeys.1
    rw [hreq] at hbehaved
    have hup : (Exchange.mk e a).givesUp k = false := Bool.eq_false_iff.2 fun hu => by
      have hf := forgets_of_ask hs hst hu
      rw [hreq] at hf
      cases hf
    have hup' : givenUp k (tr ++ [.ask t n r ⟨e, a⟩]) = givenUp k tr :=
      givenUp_kept (givesUp_ask.trans hup)
    refine ⟨?_, looked_own hs hrec hst hr hbatch hbehaved.2 hfirst hlook,
      answered_same hans rfl (givesUp_ask.trans hup)⟩
    rw [hup']
    exact slotted_own hs hst hr hbatch hbehaved.2 (fun u g hg => pass_of_batches hnest hother hg) hslot
  | @inner f rest n r past e next below a host hst hr hf =>
    have hlis := hs.waits t _ _ hst f hf
    refine ⟨?_, looked_waiting hlook hlis, answered_inner hans fun hu => forgets_of_ask hs hst hu⟩
    rw [givenUp_snoc, givesUp_ask]
    have hb : r.batches k = false := hnest.aside _ List.mem_cons_self
    exact slotted_other hs hst hr hb hf hbatch hslot
  | @called f nested r hl =>
    have hup : givenUp k (tr ++ [.start t s.count r]) = givenUp k tr := givenUp_kept rfl
    exact ⟨hup ▸ hslot, hlook, answered_called hans⟩
  | @returned f rest n r past a below hst hf =>
    have hlis := hs.waits t _ _ hst f hf
    have hup : givenUp k (tr ++ [.finish t n]) = givenUp k tr := givenUp_kept rfl
    refine ⟨hup ▸ hslot, hlook, answered_returned hans fun hforgets => ?_⟩
    -- The pass waits for its listener, so it has a client.
    have hk : k.client.isEmpty = false := by
      have hobeys := hbehaves t f hmem
      obtain ⟨m, q, past, rest⟩ := f
      obtain rfl : q = .recoverNext k limit mode := hnest.request
      cases rest with
      | done => cases hlis
      | perform => exact hobeys.1.1
    have hdone : r.Closes d past a :=
      hbehaves t ⟨n, r, past, .done a⟩ (mem_top hst)
    exact gaveUp_of_done hk hdone hforgets
  | disturbed =>
    have hup : givenUp k (tr ++ [.disturb]) = givenUp k tr := givenUp_kept rfl
    exact ⟨hup ▸ hslot, ⟨hlook.quiet, hlook.loads, hlook.scans⟩, answered_same hans rfl rfl⟩

end

/-- Whether a call is done. -/
def Frame.isDone (f : Frame) : Bool :=
  match f.rest with
  | .done _ => true
  | .perform .. => false

/-- A pass of a subscriber by a thread, from its call to its end, with what happened in between, what it
was answered and how it ended. Its listener may make any calls but passes of the same subscriber, and no
other thread moves. -/
structure Passing (k : SubscriberKey) (t : Thread) (limit : Nat) (mode : Mode) (s : System)
    (tr : List Event) (s' : System) (past : List Exchange) (a : Except Failure Nat) : Prop where
  other : ∀ u, ∀ g ∈ s.stack u, g.request.batches k = false
  own : ∀ ev ∈ tr, ev.thread? = none ∨ ev.thread? = some t
  calls : ∀ r ∈ calls tr, r.batches k = false
  goes : ∃ s₁ s₂, Step s (.start t s.count (.recoverNext k limit mode)) s₁ ∧ Run Step s₁ tr s₂ ∧
    s₂.stack t = ⟨s.count, .recoverNext k limit mode, past, .done a⟩ :: s.stack t ∧
    Step s₂ (.finish t s.count) s'

section

variable {k : SubscriberKey} {t u : Thread} {limit : Nat} {mode : Mode} {b s s₁ s₂ s' : System}
  {f : Frame} {nested : List Frame} {tr₀ tr tr₁ tr₂ : List Event} {o w : Option Watermark} {n : Nat}
  {r : Request} {past : List Exchange} {a : Except Failure Nat}

theorem amid_started (hs : s.Sound) (ho : s.host.cursors.Shows k o)
    (h : Step s (.start t s.count (.recoverNext k limit mode)) s₁) :
    ∃ f, Amid k t limit mode o s [] s₁ f [] := by
  cases h with
  | start _ hl =>
    refine ⟨⟨s.count, .recoverNext k limit mode, [],
      Request.operation s.host.destination (.recoverNext k limit mode)⟩,
      ⟨?_, fun u hu => ?_, rfl, rfl, by simp, Nat.lt_succ_self _⟩,
      ⟨nofun, fun _ => ⟨rfl, rfl, rfl⟩, fun hne => absurd rfl hne, nofun, fun _ => ?_⟩,
      ⟨fun _ _ => rfl, nofun, nofun⟩, ⟨nofun, nofun, nofun, nofun⟩⟩
    · simp [System.setStack]
    · simp [System.setStack, hu]
    · exact Cache.stands_of_shows hs.cursors ho

/-- From its call on a pass goes on, until it is over. -/
theorem amid_run (hb : b.Opened) (ht : b.host.backend.repository.Tidy b.host.destination)
    (h₀ : Run Step b tr₀ s) (ho : s.host.cursors.Shows k o)
    (hother : ∀ u, ∀ g ∈ s.stack u, g.request.batches k = false)
    (hstart : Step s (.start t s.count (.recoverNext k limit mode)) s₁) (h : Run Step s₁ tr s')
    (hown : ∀ ev ∈ tr, ev.thread? = none ∨ ev.thread? = some t)
    (hcalls : ∀ r ∈ calls tr, r.batches k = false) :
    (∃ f nested, Amid k t limit mode o s tr s' f nested) ∨ Over t s s' := by
  have hs := sound_run (sound_opened hb) h₀
  induction h with
  | nil =>
    obtain ⟨f, hf⟩ := amid_started hs ho hstart
    exact Or.inl ⟨f, [], hf⟩
  | @snoc s₂ s₃ tr ev h he ih =>
    have hall := run_trans (h₀.snoc hstart) h
    have hs₂ := sound_run (sound_opened hb) hall
    have hrec := recorded_run (sound_opened hb) (recorded_opened hb ht) hall
    have hspell : s₂.host.spell = s.host.spell :=
      (spell_run (sound_opened hb) hall).trans (spell_run (sound_opened hb) h₀).symm
    rcases ih (fun e he => hown e (List.mem_append_left _ he))
      (fun r hr => hcalls r (mem_calls_left hr)) with ⟨f, nested, hf⟩ | hover
    · exact amid_step hs hother hs₂ hrec (behaves_run hb hall) (Repository.first_of_spell hspell) hf he
        (hown ev (by simp)) fun r hr => hcalls r (mem_calls_last hr)
    · exact Or.inr (over_step hover he)

/-- Whoever looks at a cursor that was given up during a pass sees nothing. -/
theorem looks_nothing (hs : s.Sound) (h : Amid k t limit mode o s₁ tr s f nested)
    (he : Step s (.ask t n r ⟨.peek k, w⟩) s') (hc : (calls tr).any (·.forgets k)) : w = none := by
  cases he with
  | @ask _ _ _ past _ next below _ host hst hr =>
    obtain ⟨-, -, -, -, -, rfl⟩ := ask_granted hs hst hr
    have hfs := hs.frames t _ (mem_top hst)
    have hreq : r = .cachedWatermark k := hfs.follows.1.2
    obtain ⟨q, hq, hforgets⟩ := List.any_eq_true.1 hc
    have hstack := h.nest.stack
    rw [hst] at hstack
    cases nested with
    | nil =>
      obtain ⟨rfl, -⟩ := List.cons.inj hstack
      exact absurd (hreq.symm.trans h.nest.request) (by simp)
    | cons g rest =>
      obtain ⟨rfl, rfl⟩ := List.cons.inj hstack
      have hf : f ∈ rest ++ f :: s₁.stack t := by simp
      have hup : givenUp k tr := by
        rcases h.answered.told q hq hforgets with hu | ⟨g, hg, hgf⟩
        · exact hu
        · rcases List.mem_cons.1 hg with rfl | hg
          · change r.forgets k at hgf
            rw [hreq] at hgf
            cases hgf
          · -- A call that gives up a cursor has no listener that could look.
            have hgs : g ∈ rest ++ f :: s₁.stack t := List.mem_append_left _ hg
            have hsound := hs.frames t g (by rw [hst]; exact List.mem_cons_of_mem _ hgs)
            obtain ⟨j, hj⟩ := (listens_of_atListener hsound (hs.waits t _ _ hst g hgs)).redelivers
            exact absurd hgf (by simp [not_forgets_of_redelivers hj])
      have hbatch : f.request.batches k := by simp [h.nest.request, Request.batches]
      obtain ⟨i, hi⟩ := leased_of_atListener
        (hs.frames t f (by rw [hst]; exact List.mem_cons_of_mem _ hf)) hbatch (hs.waits t _ _ hst f hf)
      have hlive := h.slotted.held i hi
      rw [if_pos hup] at hlive
      unfold Cache.shown
      cases hm : s.host.cursors.mapped.find? k with
      | none => rfl
      | some j =>
        cases hp : (s.host.cursors.slot j).pendingReset with
        | true => simp [Cursor.Slot.shownToHolder, hp]
        | false => exact absurd ⟨hm, hp⟩ (hlive j)

/-- What is known of a pass that is over, which found the cursor somewhere. -/
structure Passed (k : SubscriberKey) (limit : Nat) (mode : Mode) (o : Option Watermark) (s : System)
    (tr : List Event) (s' : System) (past : List Exchange) (a : Except Failure Nat) : Prop where
  course : Course s.host.destination k limit mode (minutes past) a
  found : ∀ l ∈ (minutes past).leases, l.cursor = o
  loads : ∀ w ∈ (minutes past).loads, w = s.host.ledger.acked k
  scans : ∀ x ∈ (minutes past).scans, Snapshot s.host k x.2.1 x.1 x.2.2
  cursor : s'.host.cursors.Shows k
    (if (calls tr).any (·.forgets k) then none else (minutes past).kept.getLast?.or o)

/-- A pass that is done is alone on its thread again. -/
theorem passing_done (hb : b.Opened) (ht : b.host.backend.repository.Tidy b.host.destination)
    (h₀ : Run Step b tr₀ s) (ho : s.host.cursors.Shows k o)
    (hother : ∀ u, ∀ g ∈ s.stack u, g.request.batches k = false)
    (hstart : Step s (.start t s.count (.recoverNext k limit mode)) s₁) (h : Run Step s₁ tr s₂)
    (hown : ∀ ev ∈ tr, ev.thread? = none ∨ ev.thread? = some t)
    (hcalls : ∀ r ∈ calls tr, r.batches k = false)
    (hst : s₂.stack t = ⟨s.count, .recoverNext k limit mode, past, .done a⟩ :: s.stack t) :
    Amid k t limit mode o s tr s₂ ⟨s.count, .recoverNext k limit mode, past, .done a⟩ [] := by
  rcases amid_run hb ht h₀ ho hother hstart h hown hcalls with ⟨f, nested, hf⟩ | hover
  · have hstack := hf.nest.stack
    rw [hst] at hstack
    cases nested with
    | nil =>
      obtain ⟨rfl, -⟩ := List.cons.inj hstack
      exact hf
    | cons g rest =>
      have hlen := congrArg List.length hstack
      simp only [List.length_cons, List.length_append] at hlen
      omega
  · exact absurd rfl (hover.gone _ (mem_top hst))

/-- What happens first. -/
theorem run_head {ev : Event} (h : Run Step s (ev :: tr) s') :
    ∃ s₁, Step s ev s₁ ∧ Run Step s₁ tr s' := by
  obtain ⟨s₁, hhead, htail⟩ := run_append (show Run Step s ([ev] ++ tr) s' from h)
  obtain ⟨s₀, hnil, he⟩ := run_snoc (show Run Step s ([] ++ [ev]) s₁ from hhead)
  obtain rfl := run_nil hnil
  exact ⟨s₁, he, htail⟩

/-- A pass that is over happened, and left no other one behind. -/
theorem passing_run (hb : b.Opened) (ht : b.host.backend.repository.Tidy b.host.destination)
    (h₀ : Run Step b tr₀ s) (ho : s.host.cursors.Shows k o)
    (h : Passing k t limit mode s tr s' past a) :
    (∃ tr', Run Step s tr' s') ∧ ∀ u, ∀ g ∈ s'.stack u, g.request.batches k = false := by
  obtain ⟨hother, hown, hcalls, s₁, s₂, hstart, hrun, hst, hend⟩ := h
  have hamid := passing_done hb ht h₀ ho hother hstart hrun hown hcalls hst
  refine ⟨⟨_, (System.run_cons hstart hrun).snoc hend⟩, fun u g hg => ?_⟩
  cases hend with
  | @finish _ _ r past a below hst' =>
    obtain ⟨-, rfl⟩ := List.cons.inj (hst.symm.trans hst')
    simp only [System.setStack] at hg
    split at hg
    · exact hother t g hg
    · exact hother u g (hamid.nest.elsewhere u ‹_› ▸ hg)

theorem passing_passed (hb : b.Opened) (ht : b.host.backend.repository.Tidy b.host.destination)
    (h₀ : Run Step b tr₀ s) (ho : s.host.cursors.Shows k o)
    (h : Passing k t limit mode s tr s' past a) : Passed k limit mode o s tr s' past a := by
  obtain ⟨hother, hown, hcalls, s₁, s₂, hstart, hrun, hst, hend⟩ := h
  have hamid := passing_done hb ht h₀ ho hother hstart hrun hown hcalls hst
  have hall := run_trans (h₀.snoc hstart) hrun
  have hmem : Frame.mk s.count (.recoverNext k limit mode) past (.done a) ∈ s₂.stack t := mem_top hst
  have hcourse : Course b.host.destination k limit mode (minutes past) a := behaves_run hb hall t _ hmem
  rw [← destination_run (sound_opened hb) h₀] at hcourse
  have hs₂ := sound_run (sound_opened hb) hall
  have hrests : (Frame.mk s.count (.recoverNext k limit mode) past (.done a)).stage.Rests :=
    (hs₂.frames t _ hmem).follows
  refine ⟨hcourse, hamid.slotted.found, hamid.looked.loads, hamid.looked.scans, ?_⟩
  have hup : (calls tr).any (·.forgets k) = givenUp k tr := by
    refine Bool.eq_iff_iff.2 ⟨fun hc => ?_, hamid.answered.caused⟩
    obtain ⟨q, hq, hforgets⟩ := List.any_eq_true.1 hc
    simpa using hamid.answered.told q hq hforgets
  rw [hup]
  cases hend with
  | finish => exact shows_of_stands (hamid.slotted.free hrests.2.1)

/-- A cursor that is nowhere stays there as long as no pass goes on. -/
theorem cold_run (hs : s.Sound) (hother : ∀ u, ∀ g ∈ s.stack u, g.request.batches k = false)
    (ho : s.host.cursors.Shows k none) (h : Run Step s tr s')
    (hcalls : ∀ r ∈ calls tr, r.batches k = false) : s'.host.cursors.Shows k none := by
  refine shows_of_stands ?_
  induction h with
  | nil => exact Cache.stands_of_shows hs.cursors ho
  | @snoc s₁ s₂ tr ev h he ih =>
    have hold := ih fun r hr => hcalls r (mem_calls_left hr)
    have hs₁ := sound_run hs h
    have hc₂ : s₂.host.cursors.Sound := (sound_step hs₁ he).cursors
    have hside := requests_run (P := fun r => r.batches k = false) h hother
      fun r hr => hcalls r (mem_calls_left hr)
    cases he with
    | @ask u n r past e next below a h' hst hr =>
      have hb : r.batches k = false := hside u _ (mem_top hst)
      cases moves_of_ask (k := k) hs₁ hst (ask_granted hs₁ hst hr).2.2.2 with
      | aside _ hslot => exact stands_same hold hc₂ hslot
      | reset _ hmap hslot =>
        have hfree : h'.cursors.Free k := fun i hi => by
          have hi := hmap ▸ hi
          rw [hslot i hi, Cursor.Slot.forgotten, if_pos (hold.free i hi)]
          exact hold.free i hi
        refine ⟨hc₂, hfree, ?_⟩
        rw [Cache.shown_of_free hc₂ hfree, hmap]
        cases hm : s₁.host.cursors.mapped.find? k with
        | none => rfl
        | some i => simp [hslot i hm, Cursor.Slot.forgotten, hold.free i hm]
      | evict _ hmap => exact ⟨hc₂, fun i hi => by simp [hmap] at hi, by simp [Cache.shown, hmap]⟩
      | _ => exact absurd hb (by simp_all)
    | _ => exact hold

/-- What a listener does to its own pass takes effect when the pass ends, and not before. Its pass asks
it about exactly the messages that one scan read, which are the first above the position it started
from at that time, whatever is called meanwhile. Once the cursor is given up, whoever looks at it sees
nothing. When the pass ends, however it ends, the cursor is gone if it was given up, and otherwise is at
the last message that was accepted, or where the pass started if an object that is no exception ended
it. When it is gone, the next pass starts from the persisted position of its own time. -/
theorem changes_wait_for_the_end (hb : b.Opened)
    (ht : b.host.backend.repository.Tidy b.host.destination) (h₀ : Run Step b tr₀ s)
    (ho : s.host.cursors.Shows k o) (h : Passing k t limit mode s tr s' past a) :
    (Heeds mode (minutes past).read (minutes past).callbacks ∧ (minutes past).scans.length ≤ 1 ∧
      ∀ x ∈ (minutes past).scans, x.1 = o.getD (s.host.ledger.acked k) ∧
        Snapshot s.host k limit x.1 x.2.2) ∧
    (∀ tr₁ u n r w tr₂, tr = tr₁ ++ .ask u n r ⟨.peek k, w⟩ :: tr₂ → (calls tr₁).any (·.forgets k) →
      w = none) ∧
    s'.host.cursors.Shows k (if (calls tr).any (·.forgets k) then none else
      (o.or (minutes past).kept.head?).map fun w => if endedByObject a then w else
        Ledger.reach w ((minutes past).read.take (taken (minutes past).callbacks))) ∧
    ((calls tr).any (·.forgets k) → ∀ s₁ tr₁ u m mode' tr₂ s₂ past' a', Run Step s' tr₁ s₁ →
      (∀ r ∈ calls tr₁, r.batches k = false) → Passing k u m mode' s₁ tr₂ s₂ past' a' →
      ∀ x ∈ (minutes past').scans, x.1 = s₁.host.ledger.acked k) := by
  have hpassed := passing_passed hb ht h₀ ho h
  have hasc : ∀ x ∈ (minutes past).scans, ascending x.1 x.2.2.rows = x.2.2.rows :=
    fun x hx => (hpassed.scans x hx).ascending
  obtain ⟨hheeds, hlen, hlimit⟩ := course_heeds hpassed.course hasc
  have hstart := course_start hpassed.course hpassed.found hpassed.loads
  have hcursor := hpassed.cursor
  rw [course_kept hpassed.course hasc hpassed.found] at hcursor
  refine ⟨⟨hheeds, hlen, fun x hx => ⟨hstart x hx, hlimit x hx ▸ hpassed.scans x hx⟩⟩, ?_, hcursor, ?_⟩
  · rintro tr₁ u n r w tr₂ rfl hgiven
    obtain ⟨hother, hown, hcalls, s₁, s₂, hbegin, hrun, hst, hend⟩ := h
    obtain rfl : u = t := by simpa [Event.thread?] using hown (.ask u n r ⟨.peek k, w⟩) (by simp)
    obtain ⟨s₃, hleft, hright⟩ := run_append hrun
    obtain ⟨s₄, hask, hrest⟩ := run_head hright
    rcases amid_run hb ht h₀ ho hother hbegin hleft (fun ev hev => hown ev (List.mem_append_left _ hev))
      (fun r hr => hcalls r (mem_calls_left hr)) with ⟨f, nested, hf⟩ | hover
    · exact looks_nothing (sound_run (sound_opened hb) (run_trans (h₀.snoc hbegin) hleft)) hf hask hgiven
    · have hover := over_run (over_step hover hask) hrest
      exact absurd rfl (hover.gone _ (mem_top hst))
  · intro hgiven s₁ tr₁ u m mode' tr₂ s₂ past' a' hrun hcalls hnext
    obtain ⟨⟨tr', hrun'⟩, hother⟩ := passing_run hb ht h₀ ho h
    have hall := run_trans h₀ hrun'
    rw [if_pos hgiven] at hcursor
    have hcold := cold_run (sound_run (sound_opened hb) hall) hother hcursor hrun hcalls
    have hpassed' := passing_passed hb ht (run_trans hall hrun) hcold hnext
    exact course_start hpassed'.course hpassed'.found hpassed'.loads

end

/-- Two messages and a retroactive subscriber, who is about to be asked. -/
def System.toReplay : System :=
  ((System.fresh "orders").play (System.twoNotes ++
    [.call "main" (.subscribe { destination := "orders", key := replayed } true)])).2

/-- The subscriber's pass begins. -/
def System.replays (s : System) : System :=
  { s.setStack "main" (⟨s.count, replaying, [], replaying.operation s.host.destination⟩ ::
      s.stack "main") with
    count := s.count + 1 }

/-- The subscriber's pass goes on by some choices, and by some last steps once its listener gives a last
answer. -/
def System.replayedBy (cs : List Choice) (a : Except Failure Bool) (n : Nat) : List Event × System :=
  let (tr, s) := System.toReplay.replays.play cs
  let (tr', s') := (s.hear "main" a).elim ([], s) (System.choose.followedBy "main" n)
  (tr ++ tr', s')

theorem passing_replayed (cs : List Choice) (b : Except Failure Bool) (n : Nat)
    (hown : (System.replayedBy cs b n).1.all fun ev => ev.thread? = none ∨ ev.thread? = some "main")
    (hcalls : ∀ r ∈ calls (System.replayedBy cs b n).1, r.batches replayed = false)
    (hdone : ((System.replayedBy cs b n).2.stack "main").map (fun f => (f.number, f.request, f.isDone)) =
      [(System.toReplay.count, replaying, true)]) :
    ∃ past a, (System.replayedBy cs b n).2.stack "main" =
        [⟨System.toReplay.count, replaying, past, .done a⟩] ∧
      Passing replayed "main" 5 .reference System.toReplay (System.replayedBy cs b n).1
        ((System.replayedBy cs b n).2.setStack "main" []) past a := by
  have hidle : System.toReplay.stack "main" = [] := List.isEmpty_iff.1 (by decide +kernel)
  have hstart : Step System.toReplay (.start "main" System.toReplay.count replaying)
      System.toReplay.replays := .start replaying (by simp [hidle])
  have hrun : Run Step System.toReplay.replays (System.replayedBy cs b n).1 (System.replayedBy cs b n).2 :=
    run_trans (System.play_run _) (System.followedBy_run fun _ _ => System.hear_step)
  obtain ⟨past, a, hst⟩ : ∃ past a, (System.replayedBy cs b n).2.stack "main" =
      [⟨System.toReplay.count, replaying, past, .done a⟩] := by
    obtain ⟨⟨n, r, past, rest⟩, hf, heq⟩ := List.map_eq_singleton_iff.1 hdone
    obtain ⟨rfl, rfl, hd⟩ : n = _ ∧ r = _ ∧ _ := by simpa using heq
    cases rest with
    | done a => exact ⟨past, a, hf⟩
    | perform => cases hd
  have hother : ∀ u, ∀ g ∈ System.toReplay.stack u, g.request.batches replayed = false :=
    requests_run (P := fun r => r.batches replayed = false) (System.play_run _) (by simp [System.fresh])
      (by decide +kernel)
  exact ⟨past, a, hst, hother, by simpa using hown, hcalls, _, _, hstart, hrun,
    by rw [hst, hidle]; rfl, .finish hst⟩

theorem replay_cold : System.toReplay.host.cursors.Shows replayed none := by
  have hcold : System.toReplay.host.cursors = {} := by decide +kernel
  rw [hcold]
  exact fun _ => rfl

/-- The subscriber's listener has capacity, resets the cursor, looks at it and takes the first
message. -/
def resetMeanwhile : List Choice :=
  [.resume "main", .hear "main" (.ok true), .call "main" (.resetBatching replayed),
    .call "main" (.cachedWatermark replayed), .hear "main" (.ok true)]

theorem reset_waits_for_the_end : ∃ tr s' past a,
    Passing replayed "main" 5 .reference System.toReplay tr s' past a ∧
      calls tr = [.resetBatching replayed, .cachedWatermark replayed] ∧
      Heeds .reference (minutes past).read (minutes past).callbacks ∧
      s'.host.cursors.Shows replayed none := by
  have hcalls : calls (System.replayedBy resetMeanwhile (.ok false) 5).1 =
      [.resetBatching replayed, .cachedWatermark replayed] := by decide +kernel
  obtain ⟨past, a, -, hpass⟩ := passing_replayed resetMeanwhile (.ok false) 5
    (by decide +kernel) (by rw [hcalls]; decide) (by decide +kernel)
  obtain ⟨⟨hheeds, -⟩, -, hcursor, -⟩ := changes_wait_for_the_end
    (System.opened_fresh "orders") Repository.tidy_inMemory (System.play_run _) replay_cold hpass
  rw [hcalls] at hcursor
  exact ⟨_, _, past, a, hpass, hcalls, hheeds, hcursor⟩

/-- The subscriber's listener takes the first message, and at the second one it throws an object that
is no exception. -/
def takeThenUnwind : List Choice :=
  [.resume "main", .hear "main" (.ok true), .hear "main" (.ok true)]

/-- Nothing gave the cursor up, and it is not where the last message was accepted. -/
theorem object_ends_behind_the_cursor : ∃ tr s' past a,
    System.toReplay.host.cursors.Shows replayed none ∧
      Passing replayed "main" 5 .reference System.toReplay tr s' past a ∧ calls tr = [] ∧
      taken (minutes past).callbacks = 1 ∧
      Ledger.reach .start ((minutes past).read.take (taken (minutes past).callbacks)) = ⟨1, 0⟩ ∧
      s'.host.cursors.Shows replayed (some .start) := by
  have hcalls : calls (System.replayedBy takeThenUnwind (.error (.listener .object)) 2).1 = [] := by
    decide +kernel
  obtain ⟨past, a, hst, hpass⟩ := passing_replayed takeThenUnwind
    (.error (.listener .object)) 2 (by decide +kernel) (by simp [hcalls]) (by decide +kernel)
  have htaken : ((System.replayedBy takeThenUnwind (.error (.listener .object)) 2).2.stack "main").map
      (fun f => (taken (minutes f.past).callbacks,
        Ledger.reach .start ((minutes f.past).read.take (taken (minutes f.past).callbacks)))) =
      [(1, ⟨1, 0⟩)] := by decide +kernel
  rw [hst] at htaken
  obtain ⟨hone, hreach⟩ := Prod.mk.inj (List.singleton_inj.1 htaken)
  refine ⟨_, _, past, a, replay_cold, hpass, hcalls, hone, hreach, ?_⟩
  have hcursor : ((System.replayedBy takeThenUnwind (.error (.listener .object)) 2).2.host.cursors.slot
      0).watermark = some .start := by decide +kernel
  exact hcursor ▸ Cache.shows_of_slot (by decide +kernel) (by decide +kernel)

end DurableTopic.Store

import DurableTopic.Proofs.Play
import DurableTopic.Proofs.Tally
import Mathlib.Algebra.BigOperators.Group.Finset.Piecewise
/-! The recovered messages that the telemetry shows. They are the offers that listeners accepted, but
for those of calls that are counted as failed or that an object that is no exception ended. -/
namespace DurableTopic

namespace Telemetry

/-- What an event adds to the recovered messages of a destination. -/
def Event.recovered (d : String) : Event → Nat
  | .added c v a => if c = recoveredMessages.name ∧ a = [("destination", .text d)] then v else 0
  | _ => 0

namespace Recorder

/-- The recovered messages of a destination, as far as they are recorded. -/
def recovered (r : Recorder) (d : String) : Nat := (r.events.map (·.recovered d)).sum

/-- Measurements are recorded. -/
structure Records (r : Recorder) : Prop where
  built : r.built
  metered : r.meters = some .recording ∨ r.meters = none ∧ r.metricsInstalled

/-- Measurements are recorded as before, and some more messages are recovered. -/
structure Grows (d : String) (n : Nat) (r r' : Recorder) : Prop where
  records : r'.Records
  recovered : r'.recovered d = r.recovered d + n

section

variable {r : Recorder} {d : String} {es : List Event} {span : Span}

theorem recovered_tell :
    (r.tell es).recovered d = r.recovered d + (es.map (·.recovered d)).sum := by
  simp [recovered, tell]

theorem grows_tell (h : r.Records) : Grows d (es.map (·.recovered d)).sum r (r.tell es) :=
  ⟨⟨h.built, h.metered⟩, recovered_tell⟩

theorem grows_tellSpan {es : Nat → List Event} (h : r.Records)
    (he : ∀ n, ((es n).map (·.recovered d)).sum = 0) : Grows d 0 r (r.tellSpan span es) := by
  cases span with
  | none => exact ⟨h, rfl⟩
  | some n => exact he n ▸ grows_tell h

theorem grows_withTracer (h : r.Records) : Grows d 0 r r.withTracer.2 := by
  unfold withTracer
  split
  · exact ⟨h, rfl⟩
  split
  · have hg : Grows d _ r (r.tell [.tracer instrumentation]) := grows_tell h
    exact ⟨⟨hg.records.built, hg.records.metered⟩, hg.recovered⟩
  · exact ⟨⟨h.built, h.metered⟩, rfl⟩

theorem grows_startSpan {operation destination : String} {key : Option SubscriberKey}
    (h : r.Records) : Grows d 0 r (r.startSpan operation destination key).2 := by
  have ht := grows_withTracer (d := d) h
  unfold startSpan
  rw [if_neg (by simp [h.built])]
  split
  · rename_i r' heq
    rwa [heq] at ht
  · rename_i r' heq
    rw [heq] at ht
    refine ⟨⟨ht.records.built, ht.records.metered⟩, recovered_tell.trans ?_⟩
    rw [ht.recovered]
    cases key <;> rfl

theorem grows_withMeters (h : r.Records) :
    r.withMeters.1 = .recording ∧ Grows d 0 r r.withMeters.2 := by
  unfold withMeters
  rcases h.metered with hm | ⟨hm, hi⟩
  · simp only [hm]
    exact ⟨trivial, h, rfl⟩
  · simp only [hm, hi]
    have hg : Grows d _ r (r.tell (.meter instrumentation "0.1.0" :: instruments.map .created)) :=
      grows_tell h
    exact ⟨rfl, ⟨hg.records.built, Or.inl rfl⟩, hg.recovered⟩

theorem grows_measure (h : r.Records) :
    Grows d (es.map (·.recovered d)).sum r (r.measure es) := by
  obtain ⟨htool, hg⟩ := grows_withMeters (d := d) h
  unfold measure
  rw [if_neg (by simp [h.built])]
  split
  · rename_i heq
    simp [heq] at htool
  · rename_i r' heq
    rw [heq] at hg
    refine ⟨⟨hg.records.built, hg.records.metered⟩, recovered_tell.trans ?_⟩
    rw [hg.recovered, Nat.add_zero]

theorem grows_countOperation {operation destination : String} {b : Bool} (h : r.Records) :
    Grows d 0 r (r.countOperation operation destination b) := by
  refine (?_ : List.sum _ = 0) ▸ grows_measure h
  simp [Event.recovered, operationCount, recoveredMessages]

theorem grows_countRecovered {n : Nat} (h : r.Records) : Grows d n r (r.countRecovered d n) := by
  have hg : Grows d _ r (r.countRecovered d n) := grows_measure h
  rwa [show List.sum _ = n by split <;> simp [Event.recovered, *]] at hg

theorem grows_countScanFailure {destination : String} (h : r.Records) :
    Grows d 0 r (r.countScanFailure destination) := by
  refine (?_ : List.sum _ = 0) ▸ grows_measure h
  simp [Event.recovered, scanFailures, recoveredMessages]

end
end Recorder
end Telemetry
namespace Store

open Cursor (Thread)
open Telemetry (Recorder)

/-- What a request tells the telemetry. -/
def Effect.tell (r : Recorder) : Effect → Recorder
  | .startSpan operation d key => (r.startSpan operation d key).2
  | .setAttribute span key value => r.setAttribute span key value
  | .noteFailure span description => r.noteFailure span description
  | .endSpan span => r.endSpan span
  | .countOperation operation d b => r.countOperation operation d b
  | .countRecovered d n => r.countRecovered d n
  | .countScanFailure d => r.countScanFailure d
  | _ => r

/-- What is counted as recovered. -/
def Event.recovered : Event → Nat
  | .ask _ _ _ x => x.effect.recovered
  | _ => 0

/-- The tally of a call in a trace. -/
def tallied (t : Thread) (n : Nat) (tr : List Event) : Tally := tallyOf (heard t n tr)

/-- An offer is accepted. -/
def Event.isAccepted : Event → Bool
  | .ask _ _ _ x => x.accepts
  | _ => false

/-- An offer is accepted, in a call that is not counted as failed, and whose listener throws no object
but exceptions. -/
def Event.hands (tr : List Event) : Event → Bool
  | .ask t n _ x => x.accepts && !((tallied t n tr).failed || (tallied t n tr).unwound)
  | _ => false

section

variable {t : Thread} {n : Nat} {h h' : Host} {e : Effect} {a : e.Reply} {d : String} {r : Recorder}
  {s₀ s s' : System} {tr : List Event} {ev : Event}

theorem telemetry_replies (hr : Replies t h e a h') : h'.telemetry = e.tell h.telemetry := by
  cases hr with
  | commitFails f => rfl
  | hasCapacity | offer => rfl
  | host hc _ ha =>
    cases e with
    | acquire k =>
      simp only [Host.answer, Host.onCursors] at ha
      cases hq : h.cursors.call t (.acquire k) with
      | none => simp [hq] at ha
      | some q =>
        obtain ⟨⟨i, w⟩ | _ | _, c⟩ := q <;> simp [hq] at ha
        obtain ⟨-, rfl⟩ := ha
        rfl
    | reset | evict | peek =>
      simp only [Host.answer, Host.onCursors, Option.map_map, Option.map_eq_some_iff] at ha
      obtain ⟨q, -, heq⟩ := ha
      cases heq
      rfl
    | hasCapacity | offer => cases hc
    | _ =>
      cases ha
      rfl

/-- What is counted for a destination is recorded for it. -/
theorem grows_tell (h : r.Records) (hd : e.CountsFor d) : r.Grows d e.recovered (e.tell r) := by
  cases e with
  | startSpan => exact Recorder.grows_startSpan h
  | setAttribute => exact Recorder.grows_tellSpan h fun _ => rfl
  | noteFailure => exact Recorder.grows_tellSpan h fun _ => rfl
  | endSpan => exact Recorder.grows_tellSpan h fun _ => rfl
  | countOperation => exact Recorder.grows_countOperation h
  | countRecovered d' n => exact (show d' = d from hd) ▸ Recorder.grows_countRecovered h
  | countScanFailure => exact Recorder.grows_countScanFailure h
  | _ => exact ⟨h, rfl⟩

/-- What all calls in progress keep to. -/
theorem books_run (h₀ : s₀.Opened) (h : Run Step s₀ tr s) : ∀ t, ∀ f ∈ s.stack t,
    f.rest.Obeys (fun _ e => e.CountsFor s₀.host.destination) f.request.Books f.past :=
  obeys_run (P := fun _ _ e => e.CountsFor s₀.host.destination) (Q := Request.Books)
    (sound_opened h₀) operation_books (by simp [h₀.stack]) h

theorem grows_step (hr : s.host.telemetry.Records)
    (hf : ∀ t, ∀ f ∈ s.stack t, f.rest.Obeys (fun _ e => e.CountsFor d) f.request.Books f.past)
    (h : Step s ev s') : s.host.telemetry.Grows d ev.recovered s'.host.telemetry := by
  cases h with
  | ask hst ha =>
    have hd := (hf _ _ (mem_top hst)).1
    exact telemetry_replies ha ▸ grows_tell hr hd
  | _ => exact ⟨hr, rfl⟩

theorem grows_run (h₀ : s₀.Opened) (hr : s₀.host.telemetry.Records) (h : Run Step s₀ tr s) :
    s₀.host.telemetry.Grows s₀.host.destination (tr.map Event.recovered).sum s.host.telemetry := by
  induction h with
  | nil => exact ⟨hr, rfl⟩
  | snoc h he ih =>
    have hg := grows_step ih.records (books_run h₀ h) he
    refine ⟨hg.records, ?_⟩
    rw [hg.recovered, ih.recovered]
    simp [Nat.add_assoc]

theorem numbered_asked {x : Exchange} {r : Request} (h : Step s (.ask t n r x) s') :
    ∃ f ∈ s'.stack t, f.number = n := by
  cases h
  exact ⟨_, by simp [System.setStack]; exact Or.inl rfl, rfl⟩

/-- A call that is done counted what it should. -/
theorem settled_when_done (h₀ : s₀.Opened) (h : Run Step s₀ tr s)
    (hn : ∀ f ∈ s.stack t, f.number ≠ n) : (tallied t n tr).Settled := by
  induction h with
  | nil => rfl
  | @snoc s₁ s₂ tr ev h he ih =>
    have hother : ev.heard? t n = none := by
      refine Option.eq_none_iff_forall_not_mem.2 fun x hx => ?_
      obtain ⟨r, rfl⟩ := heard?_eq_some hx
      obtain ⟨f, hf, hfn⟩ := numbered_asked he
      exact hn f hf hfn
    rw [tallied, heard_other hother]
    -- A call that was still there has just ended, and all that it ever counts is in its past.
    by_cases hf : ∃ f ∈ s₁.stack t, f.number = n
    · obtain ⟨f, hf, rfl⟩ := hf
      rcases frame_step he hf with hkept | ⟨a, ha⟩ | ⟨x, next, -, -, hkept⟩
      · exact absurd rfl (hn f hkept)
      · have hbooks := books_run h₀ h t f hf
        rw [ha] at hbooks
        rw [((traced_run h₀ h).frames t f hf).heard]
        exact hbooks.settled
      · exact (hn _ hkept rfl).elim
    · exact ih fun f hf' hfn => hf ⟨f, hf', hfn⟩

theorem heard_append {tr' : List Event} :
    heard t n (tr ++ tr') = heard t n tr ++ heard t n tr' := List.filterMap_append

/-- Who is done with a call is answered nothing more in it. -/
theorem done_step (hn : n < s.count)
    (hd : ∀ f ∈ s.stack t, f.number = n → ∃ a, f.rest = .done a) (h : Step s ev s') :
    ev.heard? t n = none ∧ n < s'.count ∧
      ∀ f ∈ s'.stack t, f.number = n → ∃ a, f.rest = .done a := by
  cases h with
  | start r =>
    refine ⟨rfl, Nat.lt_succ_of_lt hn, fun f hf hfn => ?_⟩
    rcases mem_setStack hf with ⟨rfl, rfl⟩ | ⟨rfl, hf⟩ | ⟨-, hf⟩
    · exact absurd hfn (Nat.ne_of_gt hn)
    · exact hd f hf hfn
    · exact hd f hf hfn
  | @ask u m r past e next below a _ hst =>
    have hother : ¬ (u = t ∧ m = n) := by
      rintro ⟨rfl, rfl⟩
      obtain ⟨a, ha⟩ := hd _ (mem_top hst) rfl
      cases ha
    refine ⟨if_neg hother, hn, fun f hf hfn => ?_⟩
    rcases mem_setStack hf with ⟨rfl, rfl⟩ | hf
    · exact absurd ⟨rfl, hfn⟩ hother
    · exact hd f (mem_of_other hst hf) hfn
  | finish hst => exact ⟨rfl, hn, fun f hf => hd f (mem_of_finished hst hf)⟩
  | disturb => exact ⟨rfl, hn, hd⟩

theorem heard_done (hn : n < s.count) (hd : ∀ f ∈ s.stack t, f.number = n → ∃ a, f.rest = .done a)
    (h : Run Step s tr s') : heard t n tr = [] := by
  suffices heard t n tr = [] ∧ n < s'.count ∧
      ∀ f ∈ s'.stack t, f.number = n → ∃ a, f.rest = .done a from this.1
  induction h with
  | nil => exact ⟨rfl, hn, hd⟩
  | snoc h he ih =>
    obtain ⟨hnone, hn, hd⟩ := ih
    obtain ⟨hev, hn, hd⟩ := done_step hn hd he
    exact ⟨(heard_other hev).trans hnone, hn, hd⟩

/-- What a call that is done has counted is what it should, whatever happens later. -/
theorem books_when_done (h₀ : s₀.Opened) (h : Run Step s₀ tr s) {f : Frame} (hf : f ∈ s.stack t)
    {a : Except Failure f.request.Result} (ha : f.rest = .done a) {tr' : List Event}
    (h' : Run Step s tr' s') : (tallied t f.number (tr ++ tr')).Reports (!f.request.isPass) a := by
  have htraced := traced_run h₀ h
  have hsame : ∀ g ∈ s.stack t, g.number = f.number → ∃ a, g.rest = .done a := by
    intro g hg hgf
    have hnodup : ((s.stack t).map (·.number)).Nodup :=
      List.pairwise_map.2 ((htraced.ordered t).imp Nat.ne_of_gt)
    obtain rfl := List.inj_on_of_nodup_map hnodup hg hf hgf
    exact ⟨a, ha⟩
  have hnumber := (sound_run (sound_opened h₀) h).numbered t f hf
  have hbooks := books_run h₀ h t f hf
  rw [ha] at hbooks
  rw [tallied, heard_append, heard_done hnumber hsame h', List.append_nil,
    (htraced.frames t f hf).heard]
  exact hbooks

/-- What an answer weighs, by the call that it is for. -/
def Event.weigh (w : Thread → Nat → Exchange → Nat) : Event → Nat
  | .ask t n _ x => w t n x
  | _ => 0

/-- What is added up over a trace is added up call by call. -/
theorem sum_heard {w : Thread → Nat → Exchange → Nat} {K : Finset (Thread × Nat)}
    (hK : ∀ t n r x, .ask t n r x ∈ tr → (t, n) ∈ K) :
    (tr.map (·.weigh w)).sum = ∑ c ∈ K, ((heard c.1 c.2 tr).map (w c.1 c.2)).sum := by
  induction tr with
  | nil => simp [heard]
  | cons ev tr ih =>
    rw [List.map_cons, List.sum_cons, ih fun t n r x h => hK t n r x (List.mem_cons_of_mem _ h)]
    cases ev with
    | ask t n r x =>
      have hc : ∀ c : Thread × Nat, ((heard c.1 c.2 (.ask t n r x :: tr)).map (w c.1 c.2)).sum =
          (if c = (t, n) then w t n x else 0) + ((heard c.1 c.2 tr).map (w c.1 c.2)).sum := by
        rintro ⟨u, m⟩
        by_cases hum : (u, m) = (t, n)
        · cases hum
          simp [heard, Event.heard?]
        · have hne : ¬ (t = u ∧ n = m) := by
            rintro ⟨rfl, rfl⟩
            exact hum rfl
          simp [heard, Event.heard?, hne, hum]
      have hmem := hK t n r x List.mem_cons_self
      simp only [hc, Finset.sum_add_distrib, Finset.sum_ite_eq', hmem, if_true]
      rfl
    | _ => simp [Event.weigh, heard, Event.heard?]

theorem countP_eq_sum {α : Type} {q : α → Bool} {l : List α} :
    l.countP q = (l.map fun a => (q a).toNat).sum := by
  induction l with
  | nil => rfl
  | cons a l ih => cases h : q a <;> simp [h, ih, Nat.add_comm]

/-- Where all calls have counted what they should, so has the trace. -/
theorem handed_eq_recovered (hs : ∀ t n, (tallied t n tr).Settled) :
    tr.countP (·.hands tr) = (tr.map Event.recovered).sum := by
  -- Both sides are added up call by call, and for each call they agree.
  let K : Finset (Thread × Nat) := (tr.filterMap fun
    | .ask t n _ _ => some (t, n)
    | _ => none).toFinset
  have hK : ∀ t n r x, .ask t n r x ∈ tr → (t, n) ∈ K := fun t n r x h =>
    List.mem_toFinset.2 (List.mem_filterMap.2 ⟨_, h, rfl⟩)
  calc tr.countP (·.hands tr)
      = (tr.map (·.weigh fun t n x => (x.accepts &&
          !((tallied t n tr).failed || (tallied t n tr).unwound)).toNat)).sum := by
        rw [countP_eq_sum]
        congr 2
        funext ev
        cases ev <;> rfl
    _ = ∑ c ∈ K, (tallied c.1 c.2 tr).recovered := by
        rw [sum_heard hK]
        refine Finset.sum_congr rfl fun c _ => ?_
        rw [← countP_eq_sum, hs c.1 c.2]
        cases (tallied c.1 c.2 tr).failed || (tallied c.1 c.2 tr).unwound <;>
          simp [tallied, tallyOf]
    _ = (tr.map (·.weigh fun _ _ x => x.effect.recovered)).sum :=
        (sum_heard (w := fun _ _ x => x.effect.recovered) hK).symm
    _ = (tr.map Event.recovered).sum := by congr 2

/-- When all calls are done, the messages that are recorded as recovered are the offers that were
accepted, but for those of calls that are counted as failed, or whose listener threw an object that is
no exception. A call counts as failed if an exception ends it and it is no pass: so a pass counts what it
handed over whether an exception ends it or not, and a recovery of everything that fails counts nothing,
however much it handed over. An object that is no exception ends every call, and leaves it uncounted. -/
theorem recovered_messages_counted {tr' : List Event} (h₀ : s₀.Opened)
    (hr : s₀.host.telemetry.Records) (h : Run Step s₀ tr s) (h' : Run Step s tr' s') :
    (∀ t, ∀ f ∈ s.stack t, ∀ a, f.rest = .done a → (tallied t f.number (tr ++ tr')).Settled ∧
      ((tallied t f.number (tr ++ tr')).failed ↔
        f.request.isPass = false ∧ ∃ g, a = .error g ∧ g.isException) ∧
      ((tallied t f.number (tr ++ tr')).unwound → ∃ g, a = .error g ∧ g.isException = false)) ∧
    ((∀ t, s'.stack t = []) → s'.host.telemetry.recovered s₀.host.destination =
      s₀.host.telemetry.recovered s₀.host.destination +
        (tr ++ tr').countP (·.hands (tr ++ tr'))) := by
  refine ⟨fun t f hf a ha => ?_, fun hend => ?_⟩
  · have hbooks := books_when_done h₀ h hf ha h'
    exact ⟨hbooks.settled, by simpa using hbooks.failed, hbooks.ended⟩
  · have hrun := run_trans h h'
    rw [handed_eq_recovered fun t n => settled_when_done h₀ hrun (by simp [hend])]
    exact (grows_run h₀ hr hrun).recovered

end

/-- A store whose measurements are recorded. -/
def metered : System :=
  { System.fresh "orders" with host.telemetry := { built := true, metricsInstalled := true } }

/-- Two messages are published and a subscriber registers for both. -/
def twoAwaited : List Choice :=
  System.twoNotes ++ [.call "main" (.subscribe { destination := "orders", key := replayed } true)]

/-- A listener takes the first message in a recovery of everything, and gives up at the second. -/
def recoveryQuits : List Choice := [.call "main" (.recoverAll replayed .reference),
  .hear "main" (.ok true), .hear "main" (.error (.listener (.exception "enough")))]

/-- It takes the first message in a pass, and throws at the second. -/
def passThrows (x : Thrown) : List Choice := [.call "main" replaying, .hear "main" (.ok true),
  .hear "main" (.ok true), .hear "main" (.ok true), .hear "main" (.error (.listener x))]

theorem opened_metered : metered.Opened :=
  let h := System.opened_fresh "orders"
  ⟨h.repository, h.closed, h.cursors, h.stack⟩

theorem records_metered : metered.host.telemetry.Records := ⟨rfl, Or.inr ⟨rfl, rfl⟩⟩

theorem stack_of_alone {s : System} {t : Thread} (h : s.Alone t) (he : (s.stack t).isEmpty) :
    ∀ u, s.stack u = [] := by
  intro u
  by_cases hu : u = t
  · exact hu ▸ List.isEmpty_iff.1 he
  · exact h u hu

/-- A call that an exception ended and that is no pass. -/
def Frame.isRefused (f : Frame) : Bool :=
  !f.request.isPass && match f.rest with
    | .done (.error g) => g.isException
    | _ => false

theorem refused_done {f : Frame} (h : f.isRefused) :
    f.request.isPass = false ∧ ∃ g, f.rest = .done (.error g) ∧ g.isException := by
  unfold Frame.isRefused at h
  rw [Bool.and_eq_true, Bool.not_eq_true'] at h
  refine ⟨h.1, ?_⟩
  split at h
  · exact ⟨_, ‹_›, h.2⟩
  · cases h.2

/-- Who names no client is refused, and goes no further for now. -/
def namelessRecovery : Choice := .call "main" (.recoverAll ⟨"", none⟩ .reference) 5

/-- Of what was handed over in two passes and in a recovery of everything that all failed, that of the
pass that an exception ended is counted. -/
theorem given_up_twice_counted :
    let refused := metered.play (twoAwaited ++ passThrows .object ++
      passThrows (.exception "enough") ++ recoveryQuits ++ [namelessRecovery])
    let later := refused.2.play [.resume "main"]
    let tr := refused.1 ++ later.1
    (∃ f ∈ refused.2.stack "main", (tallied "main" f.number tr).failed) ∧
      tr.countP Event.isAccepted = 3 ∧ tr.countP (·.hands tr) = 1 ∧
      later.2.host.telemetry.recovered "orders" =
        metered.host.telemetry.recovered "orders" + tr.countP (·.hands tr) := by
  intro refused later tr
  have hr : Run Step metered refused.1 refused.2 := System.play_run _
  have hr' : Run Step refused.2 later.1 later.2 := System.play_run _
  obtain ⟨hfailed, hcounted⟩ := recovered_messages_counted opened_metered records_metered hr hr'
  have halone := (serial_run (t := "main") (run_trans hr hr') (fun _ _ => rfl)
    (by decide +kernel)).2
  refine ⟨?_, by decide +kernel, by decide +kernel,
    hcounted (stack_of_alone halone (by decide +kernel))⟩
  obtain ⟨f, hf, hrefused⟩ : ∃ f ∈ refused.2.stack "main", f.isRefused :=
    List.any_eq_true.1 (by decide +kernel)
  obtain ⟨hpass, g, hg, he⟩ := refused_done hrefused
  exact ⟨f, hf, (hfailed "main" f hf _ hg).2.1.2 ⟨hpass, g, rfl, he⟩⟩

/-- A recovery of everything that fails has handed a message over, which nothing ever counts. -/
theorem given_up_uncounted :
    let played := metered.play (twoAwaited ++ recoveryQuits)
    metered.Opened ∧ metered.host.telemetry.Records ∧ Run Step metered played.1 played.2 ∧
      (∀ t, played.2.stack t = []) ∧ played.1.countP Event.isAccepted = 1 ∧
      metered.host.telemetry.recovered "orders" = 0 ∧
      played.2.host.telemetry.recovered "orders" = 0 := by
  have hr : Run Step metered _ _ := System.play_run (twoAwaited ++ recoveryQuits)
  have halone := (serial_run (t := "main") hr (fun _ _ => rfl) (by decide +kernel)).2
  exact ⟨opened_metered, records_metered, hr, stack_of_alone halone (by decide +kernel),
    by decide +kernel, rfl, by decide +kernel⟩

end Store
end DurableTopic

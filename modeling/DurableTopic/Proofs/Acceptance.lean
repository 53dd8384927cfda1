import DurableTopic.Proofs.Play
import DurableTopic.Proofs.Redelivery
/-! What was accepted and acknowledged. The passes of a subscriber stay past it until somebody gives
up their cursor, unless the pass that accepted it is unwound. -/
namespace DurableTopic.Store

open Cursor (Thread)
open Repository (Ledger)

/-- What happened since a call took the lease of a subscriber's slot. -/
def Since (k : SubscriberKey) (n : Nat) (tr since : List Event) : Prop :=
  ∃ before t r l, tr = before ++ .ask t n r ⟨.acquire k, l⟩ :: since

/-- The cursor of a subscriber was given up since a call took its lease. -/
def GivenUp (k : SubscriberKey) (n : Nat) (tr : List Event) : Prop :=
  ∃ since, Since k n tr since ∧ ∃ ev ∈ since, ev.givesUp k

/-- A pass of a subscriber was ended by an object that is no exception. -/
def Unwound (k : SubscriberKey) (n : Nat) (tr : List Event) : Prop :=
  ∃ t r x, .ask t n r x ∈ tr ∧ (Event.ask t n r x).unwinds k

/-- A call took a lease, and something holds unless the cursor was given up since then. -/
def Holds (k : SubscriberKey) (n : Nat) (tr : List Event) (P : Prop) : Prop :=
  ∃ since, Since k n tr since ∧ (P ∨ ∃ ev ∈ since, ev.givesUp k)

/-- The passes of a subscriber have come so far, and what they keep is known. -/
def Past (k : SubscriberKey) (q : Int) (s : System) : Prop :=
  ∀ p, At k s p → p.cursor.isSome ∧ p.Ahead q

/-- A pass of a subscriber has come so far, and has yet to keep it. -/
structure Carries (k : SubscriberKey) (q : Int) (s : System) (f : Frame) (i : Nat) : Prop
    extends Under k s f i where
  cursor : f.stage.cursor.isSome
  mark : ∃ w, f.stage.mark = some w ∧ q ≤ w.sequence

/-- Some call does so. -/
def Carried (k : SubscriberKey) (q : Int) (n : Nat) (s : System) : Prop :=
  ∃ t, ∃ f ∈ s.stack t, f.number = n ∧ ∃ i, Carries k q s f i

/-- Whoever has a lease has it on the subscriber's slot, and the passes are past what was accepted,
unless the cursor was given up meanwhile, or the pass that accepted it was unwound. -/
structure Settled (k : SubscriberKey) (tr : List Event) (s : System) : Prop where
  leased : ∀ t, ∀ f ∈ s.stack t, f.request.batches k → ∀ i, f.stage.lease = some i →
    Holds k f.number tr (Live k s.host.cursors i)
  taken : ∀ t n r o, .ask t n r ⟨.offer o, .ok true⟩ ∈ tr → r.batches k →
    ∃ x ∈ s.host.ledger.rows, o.IsOf x ∧
      (Unwound k n tr ∨ Holds k n tr (Past k x.sequence s ∨ Carried k x.sequence n s))

variable {k : SubscriberKey} {q : Int} {tr tr' : List Event} {s s' : System} {ev : Event} {n m : Nat}
  {t u : Thread} {i : Nat} {l : Ledger} {p p' : Place} {stray : Prop}

theorem holds_snoc {P P' : Prop} (h : Holds k n tr P) (hp : ev.givesUp k = false → P → P') :
    Holds k n (tr ++ [ev]) P' := by
  obtain ⟨since, ⟨before, t, r, l, rfl⟩, hor⟩ := h
  refine ⟨since ++ [ev], ⟨before, t, r, l, by simp⟩, ?_⟩
  rcases hor with h | ⟨e, he, hup⟩
  · cases hup : ev.givesUp k with
    | false => exact Or.inl (hp hup h)
    | true => exact Or.inr ⟨ev, by simp, hup⟩
  · exact Or.inr ⟨e, List.mem_append_left _ he, hup⟩

theorem unwound_mono (hsub : tr ⊆ tr') (h : Unwound k n tr) : Unwound k n tr' := by
  obtain ⟨t, r, x, hm, hup⟩ := h
  exact ⟨t, r, x, hsub hm, hup⟩

/-- What is known of the cursor stays known. -/
theorem known_step (hc : p.cursor.isSome) (hm : Place.Step k l stray ev p p') :
    p'.cursor.isSome := by
  cases hm with
  | load | undo => cases hc
  | keep => rfl
  | _ => exact hc

/-- A pass with a known cursor goes back only if it is unwound. -/
theorem mark_step (hc : p.cursor.isSome) (hw : ∃ w, p.mark = some w ∧ q ≤ w.sequence)
    (hup : ev.unwinds k = false) (hm : Place.Step k l stray ev p p') :
    ∃ w, p'.mark = some w ∧ q ≤ w.sequence := by
  cases hm with
  | load | undo => cases hc
  | @accept _ _ _ _ _ v row _ _ _ habove =>
    obtain ⟨w, ⟨⟩, hq⟩ := hw
    have hmem : row ∈ l.above v := by simp [habove]
    exact ⟨_, rfl, Int.le_trans hq (Int.le_of_lt (Ledger.mem_above.1 hmem).2)⟩
  | unwind h => simp [hup] at h
  | _ => exact hw

/-- The passes go back only if the cursor is given up. -/
theorem past_step (hs : s.Sound) (h : Step s ev s') (hup : ev.givesUp k = false)
    (hp : Past k q s) : Past k q s' := by
  intro p' hp'
  rcases place_step hs h hp' with ⟨hgive, -⟩ | ⟨p, hat, hm⟩
  · simp [hup] at hgive
  obtain ⟨hc, ha⟩ := hp p hat
  exact ⟨known_step hc hm, ahead_step (Or.inr hc) ha hm⟩

/-- A lease ends where the cursor is kept. -/
theorem released_step {f : Frame} {x : Exchange} {next : x.effect.Reply →
    Operation (Except Failure f.request.Result)} (hs : s.Sound) (hf : f ∈ s.stack t)
    (hrest : f.rest = .perform x.effect next) (hi : f.stage.lease = some i)
    (hn : (f.stage.next x).lease ≠ some i) : f.stage.cursor = f.stage.mark := by
  have hperm : f.stage.Permits s.host.destination f.request x.effect := by
    have := (hs.frames t f hf).follows
    rw [hrest] at this
    exact this.1
  obtain ⟨e, a⟩ := x
  cases e with
  | release j => exact hperm.2.2
  | acquire => exact absurd (hi.symm.trans hperm.2.1) (by simp)
  | _ => exact absurd ((Stage.next_lease (by simp) (by simp)).trans hi) hn

/-- A pass carries what it has come to until it is unwound, or until it gives its slot back, where
the passes then are. -/
theorem carried_step (hs : s.Sound) (h : Step s ev s') (hup : ev.givesUp k = false)
    (hn : ¬ Unwound k n [ev]) (hc : Carried k q n s) : Past k q s' ∨ Carried k q n s' := by
  obtain ⟨t, f, hf, rfl, i, hcar⟩ := hc
  obtain ⟨⟨hb, hlease, hlive⟩, hcursor, w, hw, hq⟩ := hcar
  have hlive' := live_step hs h hup hlive
  have hat : ∀ p, At k s p → p = f.stage.place := fun p hp =>
    at_unique hs hp (.held hf ⟨hb, hlease, hlive⟩)
  rcases frame_step h hf with hf' | ⟨a, ha⟩ | ⟨x, next, hrest, rfl, hg⟩
  · exact Or.inr ⟨t, f, hf', rfl, i, ⟨hb, hlease, hlive'⟩, hcursor, w, hw, hq⟩
  · have hrests : f.stage.Rests := by
      have := (hs.frames t f hf).follows
      rwa [ha] at this
    simp [hrests.2.1] at hlease
  by_cases hi : (f.stage.next x).lease = some i
  · -- The pass goes on, and moves in a way that passes move.
    have hu : Under k s' ⟨f.number, f.request, f.past ++ [x], next x.reply⟩ i :=
      ⟨hb, by rw [stage_snoc]; exact hi, hlive'⟩
    rcases place_step hs h (.held hg hu) with ⟨hgive, -⟩ | ⟨p, hp, hm⟩
    · simp [hup] at hgive
    obtain rfl := hat p hp
    have hquiet : (Event.ask t f.number f.request x).unwinds k = false :=
      Bool.eq_false_iff.2 fun hup => hn ⟨t, f.request, x, List.mem_singleton.2 rfl, hup⟩
    exact Or.inr ⟨t, _, hg, rfl, i, hu, known_step hcursor hm,
      mark_step hcursor ⟨w, hw, hq⟩ hquiet hm⟩
  · have hkept := released_step hs hf hrest hlease hi
    refine Or.inl (past_step hs h hup fun p hp => ?_)
    obtain rfl := hat p hp
    refine ⟨hcursor, fun v hv => ?_, fun v hv => ?_⟩
    · obtain rfl : w = v := Option.some.inj ((hkept.trans hw).symm.trans hv)
      exact hq
    · obtain rfl : w = v := Option.some.inj (hw.symm.trans hv)
      exact hq

/-- A pass that accepts a message under the subscriber's slot carries it. -/
theorem carried_accept {r : Request} {o : Offer} (hs : s.Sound)
    (h : Step s (.ask t n r ⟨.offer o, .ok true⟩) s') (hb : r.batches k) :
    ∃ x ∈ s.host.ledger.rows, o.IsOf x ∧ ∃ f ∈ s.stack t, f.number = n ∧ f.request = r ∧
      ∃ i, f.stage.lease = some i ∧ (Live k s.host.cursors i → Carried k x.sequence n s') := by
  cases h with
  | @ask _ _ _ past _ next below _ h' hst hr =>
    have hmem : Frame.mk n r past (.perform (.offer o) next) ∈ s.stack t := by
      rw [hst]; exact List.mem_cons_self
    cases moves_of_ask (k := k) hs hst (ask_granted hs hst hr).2.2.2 with
    | aside hn => exact absurd hb (by simp [hn])
    | still _ _ _ hidle => exact absurd (hidle n).accepts (by simp [Event.accepts, hb])
    | unwind _ _ _ hup => exact absurd (hup n) (by simp [Event.unwinds, Exchange.unwinds])
    | @accept _ i _ w x rest _ _ hslot hlease hcursor _ _ habove ho hnext =>
      have hx : x ∈ s.host.ledger.above w := by simp [habove]
      refine ⟨x, (Ledger.mem_above.1 hx).1, ho, _, hmem, rfl, rfl, i, hlease, fun hl => ?_⟩
      have hstage : (Frame.mk n r (past ++ [⟨.offer o, .ok true⟩]) (next (.ok true))).stage =
          { (Frame.mk n r past (.perform (.offer o) next)).stage with
            mark := some x.mark, rows := rest } := stage_snoc.trans hnext
      refine ⟨t, ⟨n, r, past ++ [⟨.offer o, .ok true⟩], next (.ok true)⟩, by simp [System.setStack],
        rfl, i, ⟨hb, ?_, (live_same hslot).2 hl⟩, ?_, ?_⟩
      · rw [hstage]; exact hlease
      · rw [hstage]; simp [hcursor]
      · rw [hstage]; exact ⟨_, rfl, Int.le_refl _⟩

theorem settled_step (h : Settled k tr s) (hs : s.Sound) (he : Step s ev s') :
    Settled k (tr ++ [ev]) s' := by
  refine ⟨fun t g hg hb i hi => ?_, fun t n r o hm hb => ?_⟩
  · rcases leased_step hs he hg hb hi with ⟨f, hf, hn, hr, hfi⟩ | ⟨l, rfl, hl⟩
    · rw [← hn]
      exact holds_snoc (h.leased t f hf (hr ▸ hb) i hfi) fun hup => live_step hs he hup
    · exact ⟨[], ⟨tr, t, g.request, l, rfl⟩, Or.inl hl⟩
  · have hgrow := rows_step hs he
    rcases List.mem_append.1 hm with hm | hm
    · obtain ⟨x, hx, ho, htaken⟩ := h.taken t n r o hm hb
      refine ⟨x, hgrow.mem hx, ho, ?_⟩
      by_cases hun : Unwound k n [ev]
      · exact Or.inl (unwound_mono (List.subset_append_right _ _) hun)
      refine htaken.imp (unwound_mono (List.subset_append_left _ _)) fun hholds =>
        holds_snoc hholds fun hup hpast => ?_
      rcases hpast with hpast | hcar
      · exact Or.inl (past_step hs he hup hpast)
      · exact carried_step hs he hup hun hcar
    · obtain rfl := List.mem_singleton.1 hm
      obtain ⟨x, hx, ho, f, hf, rfl, rfl, i, hi, hcar⟩ := carried_accept hs he hb
      exact ⟨x, hgrow.mem hx, ho, Or.inr (holds_snoc (h.leased t f hf hb i hi) fun _ hl =>
        Or.inr (hcar hl))⟩

theorem settled_run {s₀ : System} (ho : s₀.Opened) (h : Run Step s₀ tr s) : Settled k tr s := by
  induction h with
  | nil => exact ⟨by simp [ho.stack], by simp⟩
  | snoc h he ih => exact settled_step ih (sound_run (sound_opened ho) h) he

/-- Giving up a cursor while its slot is leased leaves the subscriber without one. -/
theorem cold_of_givesUp (hs : s.Sound) (h : Step s ev s') (hup : ev.givesUp k)
    (hl : Live k s.host.cursors i) (hheld : (s.host.cursors.slot i).holder = some u) :
    ∀ p, At k s' p → p = {} := by
  cases h with
  | ask hst hr =>
    refine fun p => cold_of_not_live (not_live_of_givesUp hs hst hr hup fun j hj => ?_)
    obtain rfl := Option.some.inj (hl.mapped.symm.trans hj)
    simp [hheld]
  | _ => cases hup

/-- Nobody is given a slot that a pass has yet to give back. -/
theorem not_acquired {r : Request} {l : Lease} (hs : s.Sound) (hc : Carried k q m s)
    (h : Step s (.ask t n r ⟨.acquire k, l⟩) s') : False := by
  obtain ⟨u, f, hf, -, i, hcar⟩ := hc
  have hheld := ((hs.frames u f hf).leased i hcar.lease).1
  cases h with
  | ask hst hr =>
    obtain ⟨j, -, hfree, hold, -⟩ :=
      Cursor.Cache.acquire_spec hs.cursors (ask_granted hs hst hr).2.2.2.2
    rcases hold with hold | ⟨hnone, -⟩
    · obtain rfl := Option.some.inj (hold.symm.trans hcar.live.mapped)
      simp [hfree] at hheld
    · exact absurd hcar.live.mapped (by simp [hnone])

/-- A position that no place was behind stays so, and one that a pass carries is kept or carried on,
as long as that pass is not unwound. -/
theorem leads_or_carried_step (hs : s.Sound) (h : Step s ev s') (hq : Reached k q s.host.ledger)
    (hn : ¬ Unwound k n [ev]) (hl : Leads k q s ∨ Carried k q n s) :
    Leads k q s' ∨ Carried k q n s' := by
  rcases hl with hl | hcar
  · exact Or.inl (leads_step hs h hq hl)
  cases hup : ev.givesUp k with
  | false => exact (carried_step hs h hup hn hcar).imp (fun hpast p hp => (hpast p hp).2) id
  | true =>
    obtain ⟨t, f, hf, -, i, hcar⟩ := hcar
    have hheld := ((hs.frames t f hf).leased i hcar.lease).1
    exact Or.inl fun p hp => cold_of_givesUp hs h hup hcar.live hheld p hp ▸ ahead_cold

/-- While a pass carries an acknowledged position, or no place was behind it, no pass lags behind
it, as long as that pass is not unwound. -/
theorem carried_never_lags (hs : s.Sound) (hq : Reached k q s.host.ledger)
    (hl : Leads k q s ∨ Carried k q m s) (h : Run (RegisteredStep k) s tr s')
    (hn : ¬ Unwound k m tr) : ∀ n, ¬ Lags k q n tr := by
  refine (never_lags_of (P := fun s => Leads k q s ∨ Carried k q m s) hs hq hl h
    (fun ev hev _ _ hs he hq => ?_) fun hs he hl hw => ?_).2
  · exact leads_or_carried_step hs he hq fun hun =>
      hn (unwound_mono (by simpa using hev) hun)
  · rcases hl with hl | hcar
    · exact leads_acquire hs he hl hw
    · exact absurd he (not_acquired hs hcar)

/-- A message that a pass of a subscriber accepted is not offered again once it is acknowledged: not
by a call that redelivers everything, and by a pass only if it resumes from a cursor that lags
behind the message, which takes that the cursor was given up between the lease of the accepting pass
and the acknowledgement, or that the accepting pass was ended by an object that is no exception. -/
theorem acked_not_offered_again {s₀ s₁ s₂ : System} {tr₁ tr₂ : List Event} {r : Request} {o : Offer}
    (ho : s₀.Opened) (h₁ : Run Step s₀ tr₁ s₁) (h₂ : Run (RegisteredStep k) s₁ tr₂ s₂)
    (hacc : .ask t n r ⟨.offer o, .ok true⟩ ∈ tr₁) (hb : r.batches k) :
    ∃ x ∈ s₁.host.ledger.rows, o.IsOf x ∧
      ∀ y, s₁.host.ledger.record k = some y → x.sequence ≤ y.acked.sequence →
        ∀ t' n' r' o' a, .ask t' n' r' ⟨.offer o', a⟩ ∈ tr₂ → s₁.count ≤ n' → r'.redelivers k →
          ∃ x' ∈ s₂.host.ledger.rows, o'.IsOf x' ∧ (x.sequence < x'.sequence ∨
            r'.batches k ∧ Lags k x.sequence n' tr₂ ∧
              (GivenUp k n tr₁ ∨ Unwound k n (tr₁ ++ tr₂))) := by
  have hs₁ := sound_run (sound_opened ho) h₁
  obtain ⟨x, hx, hox, htaken⟩ := (settled_run ho h₁).taken t n r o hacc hb
  refine ⟨x, hx, hox, fun y hy hle t' n' r' o' a hm hn hd => ?_⟩
  have hq : Reached k x.sequence s₁.host.ledger := ⟨y, hy, hle⟩
  obtain ⟨-, -, hoffers⟩ := beyond_run hs₁ hq h₂
  obtain ⟨x', hx', hox', hlt⟩ := hoffers t' n' r' o' a hm hn hd
  refine ⟨x', hx', hox', hlt.imp id ?_⟩
  rintro ⟨hb', hlag⟩
  refine ⟨hb', hlag, ?_⟩
  by_cases hun : Unwound k n (tr₁ ++ tr₂)
  · exact Or.inr hun
  obtain ⟨since, hsince, hpast | hup⟩ := htaken.resolve_left fun h =>
    hun (unwound_mono (List.subset_append_left _ _) h)
  · have hl : Leads k x.sequence s₁ ∨ Carried k x.sequence n s₁ :=
      hpast.imp (fun hpast p hp => (hpast p hp).2) id
    exact absurd hlag (carried_never_lags hs₁ hq hl h₂ (fun h =>
      hun (unwound_mono (List.subset_append_right _ _) h)) n')
  · exact Or.inl ⟨since, hsince, hup⟩

/-- A subscriber takes two messages in one pass. -/
def bothTaken : List Choice :=
  System.twoNotes ++
    [.call "main" (.subscribe { destination := "orders", key := ⟨"a", none⟩ } true),
      .call "main" (.recoverNext ⟨"a", none⟩ 5 .reference), .hear "main" (.ok true),
      .hear "main" (.ok true), .hear "main" (.ok true), .hear "main" (.ok true)]

/-- The first of them is acknowledged. -/
def firstAcked : List Choice := bothTaken ++
  [.call "main" (.acknowledge ⟨"a", none⟩ "m1" .standard)]

/-- A pass takes one message. -/
def onePass : List Choice :=
  [.call "main" (.recoverNext ⟨"a", none⟩ 5 .reference), .hear "main" (.ok true),
    .hear "main" (.ok true)]

/-- The cursor is reset, and then a pass takes one message. -/
def resetAndPass : List Choice := .call "main" (.resetBatching ⟨"a", none⟩) :: onePass

theorem first_acked_not_offered_again :
    let s₁ := ((System.fresh "orders").play firstAcked).2
    let tr₂ := (s₁.play resetAndPass).1
    accepted ⟨"a", none⟩ tr₂ = [.reference ⟨"m2", 2⟩] ∧
      ∃ n, ∃ x ∈ s₁.host.ledger.rows, (Offer.reference ⟨"m1", 1⟩).IsOf x ∧
        ∀ t' n' r' o' a, .ask t' n' r' ⟨.offer o', a⟩ ∈ tr₂ → s₁.count ≤ n' →
          r'.redelivers ⟨"a", none⟩ → ∃ x' ∈ (s₁.play resetAndPass).2.host.ledger.rows,
            o'.IsOf x' ∧ (x.sequence < x'.sequence ∨ r'.batches ⟨"a", none⟩ ∧
              Lags ⟨"a", none⟩ x.sequence n' tr₂ ∧
              (GivenUp ⟨"a", none⟩ n ((System.fresh "orders").play firstAcked).1 ∨
                Unwound ⟨"a", none⟩ n (((System.fresh "orders").play firstAcked).1 ++ tr₂))) := by
  intro s₁ tr₂
  have hopen := System.opened_fresh "orders"
  have h₁ := System.play_run (s := System.fresh "orders") firstAcked
  have hacc : Offer.reference ⟨"m1", 1⟩ ∈
      accepted ⟨"a", none⟩ ((System.fresh "orders").play firstAcked).1 := by decide +kernel
  obtain ⟨t, n, r, hb, hm⟩ := mem_accepted hacc
  obtain ⟨h₂, -⟩ := registered_run (k := ⟨"a", none⟩) (sound_run (sound_opened hopen) h₁)
    (System.play_run (s := s₁) resetAndPass) (by decide +kernel)
    (requests_run (P := fun r => r.deletes = false) h₁ (by simp [hopen.stack]) (by decide +kernel))
    (by decide +kernel)
  obtain ⟨x, hx, ho, hlater⟩ := acked_not_offered_again hopen h₁ h₂ hm hb
  have hseq : ∀ x ∈ s₁.host.ledger.rows,
      (⟨"m1", 1⟩ : MessageId) = ⟨x.id, Int64.ofInt x.sequence⟩ → x.sequence ≤ 1 := by decide +kernel
  refine ⟨by decide +kernel, n, x, hx, ho, ?_⟩
  refine hlater ⟨"orders", ⟨"a", none⟩, "", true, ⟨1, 0⟩⟩ (by decide +kernel) ?_
  rcases ho with ho | ⟨_, _, ho⟩
  · exact hseq x hx (Offer.reference.inj ho)
  · cases ho

/-- Both messages were taken, and the second is acknowledged after a reset and a pass that took only
the first again. -/
def ackedAfterReset : List Choice := bothTaken ++
  [.call "main" (.resetBatching ⟨"a", none⟩), .call "main" (.recoverNext ⟨"a", none⟩ 1 .reference),
    .hear "main" (.ok true), .hear "main" (.ok true),
    .call "main" (.acknowledge ⟨"a", none⟩ "m2" .standard)]

/-- An acknowledged message that was accepted is offered again, and accepted again. -/
theorem acked_offered_again_after_reset :
    let tr₁ := ((System.fresh "orders").play ackedAfterReset).1
    let s₁ := ((System.fresh "orders").play ackedAfterReset).2
    let tr₂ := (s₁.play onePass).1
    let s₂ := (s₁.play onePass).2
    (System.fresh "orders").Opened ∧ Run SerialStep (System.fresh "orders") tr₁ s₁ ∧
      Run SerialStep s₁ tr₂ s₂ ∧ Run (RegisteredStep ⟨"a", none⟩) s₁ tr₂ s₂ ∧
      (∀ u, s₁.stack u = []) ∧
      (∃ x ∈ s₁.host.ledger.rows, (Offer.reference ⟨"m2", 2⟩).IsOf x ∧ x.sequence = 2) ∧
      (s₁.host.ledger.record ⟨"a", none⟩).map (·.acked) = some ⟨2, 0⟩ ∧
      Offer.reference ⟨"m2", 2⟩ ∈ accepted ⟨"a", none⟩ tr₁ ∧
      Offer.reference ⟨"m2", 2⟩ ∈ accepted ⟨"a", none⟩ tr₂ := by
  intro tr₁ s₁ tr₂ s₂
  have hopen := System.opened_fresh "orders"
  have h₁ := System.play_run (s := System.fresh "orders") ackedAfterReset
  have h₂ := System.play_run (s := s₁) onePass
  obtain ⟨hserial₁, ha⟩ := serial_run (t := "main") h₁ (fun _ _ => rfl) (by decide +kernel)
  obtain ⟨hserial₂, -⟩ := serial_run h₂ ha (by decide +kernel)
  have hkept := registered_run (k := ⟨"a", none⟩) (sound_run (sound_opened hopen) h₁) h₂
    (by decide +kernel)
    (requests_run (P := fun r => r.deletes = false) h₁ (by simp [hopen.stack]) (by decide +kernel))
    (by decide +kernel)
  refine ⟨hopen, hserial₁, hserial₂, hkept.1, fun u => ?_, ?_, by decide +kernel, by decide +kernel,
    by decide +kernel⟩
  · by_cases hu : u = "main"
    · have hempty : (s₁.stack "main").isEmpty = true := by decide +kernel
      exact hu ▸ List.isEmpty_iff.1 hempty
    · exact ha u hu
  · obtain ⟨x, hx, hid, hseq⟩ : ∃ x ∈ s₁.host.ledger.rows, x.id = "m2" ∧ x.sequence = 2 := by
      decide +kernel
    exact ⟨x, hx, Or.inl (by rw [hid, hseq]; rfl), hseq⟩

end DurableTopic.Store

import DurableTopic.Proofs.Places
import DurableTopic.Proofs.Records
/-! What is not delivered again: a pass that starts when a position is acknowledged offers messages
above it, unless it resumes from a cursor that lags behind. -/
namespace DurableTopic.Store

open Cursor (Thread)
open Repository (Ledger)
open Subscription (Onward)

/-- One thing happens, and the subscriber is registered after it. -/
structure RegisteredStep (k : SubscriberKey) (s : System) (e : Event) (s' : System) : Prop where
  step : Step s e s'
  registered : s'.host.ledger.record k ≠ none

/-- The acknowledged position of a subscriber has come so far. -/
def Reached (k : SubscriberKey) (q : Int) (l : Ledger) : Prop :=
  ∃ x, l.record k = some x ∧ q ≤ x.acked.sequence

/-- A pass was given a cursor that lags behind. -/
def Lags (k : SubscriberKey) (q : Int) (n : Nat) (tr : List Event) : Prop :=
  ∃ t r l w, .ask t n r ⟨.acquire k, l⟩ ∈ tr ∧ l.cursor = some w ∧ w.sequence < q

/-- A call in progress offers messages above a position, or it lags. -/
structure Beyond (k : SubscriberKey) (q : Int) (tr : List Event) (l : Ledger) (f : Frame) :
    Prop where
  cursor : f.request.batches k → ∀ w, f.stage.cursor = some w →
    q ≤ w.sequence ∨ Lags k q f.number tr
  mark : f.request.batches k → ∀ w, f.stage.mark = some w →
    q ≤ w.sequence ∨ Lags k q f.number tr
  rows : f.request.redelivers k → f.request.batches k = false → ∀ x ∈ f.stage.rows,
    x ∈ l.rows ∧ q < x.sequence

/-- Calls that are made from some time on offer stored messages beyond a position, or lag behind. -/
def OffersBeyond (k : SubscriberKey) (q : Int) (since : Nat) (tr : List Event) (l : Ledger) :
    Prop :=
  ∀ t n r o a, .ask t n r ⟨.offer o, a⟩ ∈ tr → since ≤ n → r.redelivers k →
    ∃ x ∈ l.rows, o.IsOf x ∧ (q < x.sequence ∨ r.batches k ∧ Lags k q n tr)

/-- A place is not behind a position. -/
structure Place.Ahead (q : Int) (p : Place) : Prop where
  cursor : ∀ w, p.cursor = some w → q ≤ w.sequence
  mark : ∀ w, p.mark = some w → q ≤ w.sequence

/-- The place of a subscriber's passes is not behind a position. -/
def Leads (k : SubscriberKey) (q : Int) (s : System) : Prop := ∀ p, At k s p → p.Ahead q

variable {k : SubscriberKey} {q : Int} {tr : List Event} {s s' : System} {ev : Event} {n : Nat}
  {t u : Thread} {l l' : Ledger} {f : Frame}

theorem lags_snoc (h : Lags k q n tr) : Lags k q n (tr ++ [ev]) := by
  obtain ⟨t, r, l, w, hm, hw⟩ := h
  exact ⟨t, r, l, w, List.mem_append_left _ hm, hw⟩

/-- While nobody deletes subscribers, records stay. -/
theorem onward_of_kept (hs : s.Sound) (h : Step s ev s')
    (hn : ∀ u, ∀ f ∈ s'.stack u, f.request.deletes = false) :
    Onward (s.host.ledger.record k) (s'.host.ledger.record k) := by
  rcases ledger_step hs h with hleg | ⟨t, f, hf, -, -, hev⟩
  · exact hleg ▸ Subscription.onward_refl _
  · refine Ledger.onward_evolves hev fun j hj => ?_
    have := hn t f hf
    simp [hj, Request.deletes] at this

/-- While a subscriber is registered its acknowledged position only moves forward. -/
theorem onward_step (hs : s.Sound) (h : RegisteredStep k s ev s') :
    Onward (s.host.ledger.record k) (s'.host.ledger.record k) := by
  rcases ledger_step hs h.step with hleg | ⟨t, f, -, -, -, hev⟩
  · exact hleg ▸ Subscription.onward_refl _
  by_cases hdel : ∃ j, f.request = .unsubscribe j
  · obtain ⟨j, hj⟩ := hdel
    rw [hj] at hev
    rcases Ledger.record_evolves (k := k) hev with hrec | hrec
    · exact hrec ▸ Subscription.onward_refl _
    · exact absurd hrec h.registered
  · exact Ledger.onward_evolves hev fun j hj => absurd ⟨j, hj⟩ hdel

/-- Without deletions a subscriber stays registered. -/
theorem registered_run (hs : s.Sound) (h : Run Step s tr s') (hk : s.host.ledger.record k ≠ none)
    (hframes : ∀ u, ∀ f ∈ s.stack u, f.request.deletes = false)
    (hcalls : ∀ r ∈ calls tr, r.deletes = false) :
    Run (RegisteredStep k) s tr s' ∧ s'.host.ledger.record k ≠ none := by
  induction h with
  | nil => exact ⟨.nil _, hk⟩
  | snoc h he ih =>
    obtain ⟨hrun, hk'⟩ := ih fun r hm => hcalls r (mem_calls_left hm)
    have hnone := requests_run (P := fun r => r.deletes = false) (h.snoc he) hframes hcalls
    have hkept := onward_of_kept (k := k) (sound_run hs h) he hnone
    obtain ⟨x, hx⟩ := Option.ne_none_iff_exists'.1 hk'
    obtain ⟨x', hx', -⟩ := hkept x hx
    exact ⟨hrun.snoc ⟨he, by simp [hx']⟩, by simp [hx']⟩

theorem reached_step (hs : s.Sound) (h : RegisteredStep k s ev s')
    (hr : Reached k q s.host.ledger) : Reached k q s'.host.ledger := by
  obtain ⟨x, hx, hq⟩ := hr
  obtain ⟨x', hx', hack⟩ := onward_step hs h x hx
  exact ⟨x', hx', Int.le_trans hq hack⟩

theorem beyond_carry (h : Beyond k q tr l f) (hr : l.rows <+: l'.rows) :
    Beyond k q (tr ++ [ev]) l' f :=
  ⟨fun hb w hw => (h.cursor hb w hw).imp id lags_snoc,
    fun hb w hw => (h.mark hb w hw).imp id lags_snoc,
    fun hd hb x hx => (h.rows hd hb x hx).imp hr.mem id⟩

section

variable {h' : Host} {e : Effect} {a : e.Reply} {r : Request} {past : List Exchange}
  {next : e.Reply → Operation (Except Failure r.Result)} {below : List Frame}

/-- A call that redelivers everything reads what is above the acknowledged position. -/
theorem rows_ask (hs : s.Sound) (hst : s.stack t = ⟨n, r, past, .perform e next⟩ :: below)
    (hr : Replies t s.host e a h') (hd : r.redelivers k) (hb : r.batches k = false) (x : Row)
    (hx : x ∈ ((past.foldl Stage.next {}).next ⟨e, a⟩).rows) :
    x ∈ (past.foldl Stage.next {}).rows ∨
      ∃ y, s.host.ledger.record k = some y ∧ x ∈ s.host.ledger.above y.acked := by
  have hf := hs.frames t _ (by rw [hst]; exact List.mem_cons_self)
  have hg := (ask_granted hs hst hr).2.2.2
  have hperm := hf.follows.1
  have hactive := hf.active
  simp only [Frame.stage] at hperm hactive
  generalize past.foldl Stage.next {} = st at *
  cases e with
  | call c =>
    obtain ⟨hp, hmay, -⟩ := hperm
    obtain ⟨-, -, l, l', hl, -, ha⟩ := hg
    obtain ⟨l₁, hl₁, hev⟩ := hactive hp
    obtain rfl : l₁ = l := by simpa [hl₁] using hl
    obtain rfl : l₁ = s.host.ledger := Ledger.evolves_reads hev hd
    cases r <;> simp only [Request.redelivers, Request.batches, Bool.false_eq_true,
      decide_eq_true_eq, decide_eq_false_iff_not] at hd hb
    · exact absurd hd hb
    cases c <;> simp only [Request.mayCall] at hmay
    obtain rfl := hd.symm.trans hmay.2.symm
    have hx := ha.2.mem hx
    cases hk : s.host.ledger.record k with
    | none => simp [hk] at hx
    | some y => exact Or.inr ⟨y, rfl, by simpa [hk] using hx⟩
  | begin | commit => rcases a with f | _ <;> exact Or.inl hx
  | hasCapacity =>
    rcases a with f | _
    · exact Or.inl (Stage.failed_rows hx)
    · exact Or.inl hx
  | offer o =>
    rcases a with f | _ | _
    · exact Or.inl (Stage.failed_rows hx)
    · exact Or.inl hx
    · exact Or.inl (Stage.passed_rows hx)
  | _ => exact Or.inl hx

/-- An answer lets the call that moves go on beyond the position. -/
theorem beyond_ask (hs : s.Sound) (hst : s.stack t = ⟨n, r, past, .perform e next⟩ :: below)
    (hr : Replies t s.host e a h') (hq : Reached k q s.host.ledger)
    (hgrow : s.host.ledger.rows <+: h'.ledger.rows)
    (hb : Beyond k q tr s.host.ledger ⟨n, r, past, .perform e next⟩) :
    Beyond k q (tr ++ [.ask t n r ⟨e, a⟩]) h'.ledger ⟨n, r, past ++ [⟨e, a⟩], next a⟩ := by
  obtain ⟨y, hy, hqy⟩ := hq
  have hold : Beyond k q (tr ++ [.ask t n r ⟨e, a⟩]) h'.ledger ⟨n, r, past, .perform e next⟩ :=
    beyond_carry hb hgrow
  refine ⟨fun hbk w hw => ?_, fun hbk w hw => ?_, fun hd hbk x hx => ?_⟩
  · rw [stage_snoc] at hw
    have hcursor := hold.cursor hbk
    cases moves_of_ask (k := k) hs hst (ask_granted hs hst hr).2.2.2 with
    | aside hn => exact absurd hbk (by simp [hn])
    | still _ _ hsame => exact hcursor w (hsame.cursor ▸ hw)
    | load => exact hcursor w hw
    | undo => exact hcursor w hw
    | scan => exact hcursor w hw
    | keep _ _ hm =>
      cases hw
      exact hold.mark hbk _ hm
    | release => exact hcursor w hw
    | acquire =>
      by_cases hlt : w.sequence < q
      · exact Or.inr ⟨t, r, _, w, List.mem_append_right _ (List.mem_singleton.2 rfl), hw, hlt⟩
      · exact Or.inl (Int.not_lt.1 hlt)
    | accept _ _ _ _ _ _ _ _ hnext =>
      rw [show (past.foldl Stage.next {}).next _ = _ from hnext] at hw
      exact hcursor w hw
    | unwind _ _ _ _ _ hnext =>
      rw [show (past.foldl Stage.next {}).next _ = _ from hnext] at hw
      exact hcursor w hw
    | reset hreq => exact absurd hbk (by simp [hreq, Request.batches])
    | evict hreq => exact absurd hbk (by simp [hreq, Request.batches])
  · rw [stage_snoc] at hw
    have hmark := hold.mark hbk
    cases moves_of_ask (k := k) hs hst (ask_granted hs hst hr).2.2.2 with
    | aside hn => exact absurd hbk (by simp [hn])
    | still _ _ hsame => exact hmark w (hsame.mark ▸ hw)
    | load _ _ _ _ hw' =>
      cases hw
      exact Or.inl (by simpa [hw', hy] using hqy)
    | undo _ _ hcursor => exact absurd (hcursor.symm.trans hw) (by simp)
    | scan => exact hmark w hw
    | keep => exact hmark w hw
    | release => exact hmark w hw
    | acquire =>
      by_cases hlt : w.sequence < q
      · exact Or.inr ⟨t, r, _, w, List.mem_append_right _ (List.mem_singleton.2 rfl), hw, hlt⟩
      · exact Or.inl (Int.not_lt.1 hlt)
    | @accept _ _ _ v row _ _ _ _ _ _ hm _ habove _ hnext =>
      rw [show (past.foldl Stage.next {}).next _ = _ from hnext] at hw
      cases hw
      rcases hmark _ hm with hge | hlag
      · have hmem : row ∈ s.host.ledger.above v := by simp [habove]
        exact Or.inl (Int.le_trans hge (Int.le_of_lt (Ledger.mem_above.1 hmem).2))
      · exact Or.inr hlag
    | unwind _ _ _ _ hc hnext =>
      rw [show (past.foldl Stage.next {}).next _ = _ from hnext] at hw
      cases hw
      exact hold.cursor hbk _ hc
    | reset hreq => exact absurd hbk (by simp [hreq, Request.batches])
    | evict hreq => exact absurd hbk (by simp [hreq, Request.batches])
  · rw [stage_snoc] at hx
    rcases rows_ask hs hst hr hd hbk x hx with hx | ⟨y', hy', hx⟩
    · exact hold.rows hd hbk x hx
    · obtain rfl : y' = y := by simpa [hy] using hy'.symm
      obtain ⟨hm, hlt⟩ := Ledger.mem_above.1 hx
      exact ⟨hgrow.mem hm, by omega⟩

end

/-- A call that goes on beyond a position offers a stored message beyond it. -/
theorem offer_beyond {r : Request} {o : Offer} {a : Except Failure Bool} (hs : s.Sound)
    (h : Step s (.ask t n r ⟨.offer o, a⟩) s') (hd : r.redelivers k)
    (hb : ∀ f ∈ s.stack t, f.number = n → Beyond k q tr s.host.ledger f) :
    ∃ x ∈ s.host.ledger.rows, o.IsOf x ∧ (q < x.sequence ∨ r.batches k ∧ Lags k q n tr) := by
  cases h with
  | @ask _ _ _ past _ next _ _ _ hst =>
    have hmem : Frame.mk n r past (.perform (.offer o) next) ∈ s.stack t := by
      rw [hst]; exact List.mem_cons_self
    have hf := hs.frames t _ hmem
    have hbeyond := hb _ hmem rfl
    obtain ⟨hlisten, x, rest, ha, ho⟩ := hf.follows.1
    cases hbk : r.batches k with
    | false =>
      have hx : x ∈ (past.foldl Stage.next {}).rows := by
        have hahead : (past.foldl Stage.next {}).ahead = x :: rest := ha
        unfold Stage.ahead at hahead
        split at hahead
        · simp [hahead]
        · exact (List.dropWhile_sublist _).subset (hahead ▸ List.mem_cons_self)
      obtain ⟨hm, hlt⟩ := hbeyond.rows hd hbk x hx
      exact ⟨x, hm, ho, Or.inl hlt⟩
    | true =>
      obtain ⟨w, hw⟩ := Option.isSome_iff_exists.1 (hlisten.ready k hbk).2.2
      obtain ⟨-, ⟨more, habove⟩, -⟩ := offers_first (o := o) hw (hf.scanned w hw) ha
      have hmem : x ∈ s.host.ledger.above w := by simp [habove]
      obtain ⟨hm, hlt⟩ := Ledger.mem_above.1 hmem
      refine ⟨x, hm, ho, ?_⟩
      rcases hbeyond.mark hbk w hw with hge | hlag
      · exact Or.inl (Int.lt_of_le_of_lt hge hlt)
      · exact Or.inr ⟨rfl, hlag⟩

theorem beyond_step {since : Nat} (hs : s.Sound) (h : RegisteredStep k s ev s')
    (hq : Reached k q s.host.ledger)
    (hb : ∀ u, ∀ f ∈ s.stack u, since ≤ f.number → Beyond k q tr s.host.ledger f) :
    ∀ u, ∀ f ∈ s'.stack u, since ≤ f.number → Beyond k q (tr ++ [ev]) s'.host.ledger f := by
  intro u g hg hn
  have hgrow := rows_step hs h.step
  cases h.step with
  | start r =>
    rcases mem_setStack hg with ⟨rfl, rfl⟩ | ⟨rfl, hg⟩ | ⟨-, hg⟩
    · exact ⟨by rintro - w ⟨⟩, by rintro - w ⟨⟩, by rintro - - x ⟨⟩⟩
    · exact beyond_carry (hb u g hg hn) hgrow
    · exact beyond_carry (hb u g hg hn) hgrow
  | ask hst hr =>
    rcases mem_setStack hg with ⟨rfl, rfl⟩ | hgu
    · exact beyond_ask hs hst hr hq hgrow (hb u _ (by rw [hst]; exact List.mem_cons_self) hn)
    · exact beyond_carry (hb u g (mem_of_other hst hgu) hn) hgrow
  | finish hst =>
    exact beyond_carry (hb u g (mem_of_finished hst hg) hn) hgrow
  | disturb => exact beyond_carry (hb u g hg hn) hgrow

/-- Once a position is acknowledged, calls that are made later offer messages beyond it or lag. -/
theorem beyond_run (hs : s.Sound) (hq : Reached k q s.host.ledger)
    (h : Run (RegisteredStep k) s tr s') : Reached k q s'.host.ledger ∧
      (∀ u, ∀ f ∈ s'.stack u, s.count ≤ f.number → Beyond k q tr s'.host.ledger f) ∧
      OffersBeyond k q s.count tr s'.host.ledger := by
  induction h with
  | nil =>
    refine ⟨hq, fun u f hf hn => ?_, by simp [OffersBeyond]⟩
    exact absurd (hs.numbered u f hf) (Nat.not_lt.2 hn)
  | @snoc s₁ s₂ tr ev h he ih =>
    obtain ⟨hq₁, hb, hoffers⟩ := ih
    have hs₁ := sound_run hs (run_mono (fun _ _ _ h => h.step) h)
    refine ⟨reached_step hs₁ he hq₁, beyond_step hs₁ he hq₁ hb, ?_⟩
    intro t n r o a hm hn hd
    have hgrow := rows_step hs₁ he.step
    have hoffer : ∃ x ∈ s₁.host.ledger.rows, o.IsOf x ∧
        (q < x.sequence ∨ r.batches k ∧ Lags k q n tr) := by
      rcases List.mem_append.1 hm with hm | hm
      · exact hoffers t n r o a hm hn hd
      · obtain rfl := List.mem_singleton.1 hm
        exact offer_beyond hs₁ he.step hd fun f hf hfn => hb t f hf (hfn ▸ hn)
    obtain ⟨x, hx, ho, hlt⟩ := hoffer
    exact ⟨x, hgrow.mem hx, ho, hlt.imp id (And.imp_right lags_snoc)⟩

/-- The place goes back behind a position only where a position is loaded that lies behind it. -/
theorem ahead_step {stray : Prop} {p p' : Place} (hq : Reached k q l ∨ p.cursor.isSome)
    (ha : p.Ahead q) (hm : Place.Step k l stray ev p p') : p'.Ahead q := by
  cases hm with
  | load _ hload =>
    obtain ⟨y, hy, hqy⟩ := hq.resolve_right (by simp)
    refine ⟨ha.cursor, fun w hw => ?_⟩
    cases hw
    simpa [hload, hy] using hqy
  | undo => exact ⟨ha.cursor, by simp⟩
  | keep => exact ⟨ha.mark, ha.mark⟩
  | @accept _ _ _ _ _ v row _ _ _ habove =>
    refine ⟨ha.cursor, fun w hw => ?_⟩
    cases hw
    have hmem : row ∈ l.above v := by simp [habove]
    exact Int.le_trans (ha.mark v rfl) (Int.le_of_lt (Ledger.mem_above.1 hmem).2)
  | stay => exact ha
  | scan => exact ⟨ha.cursor, ha.mark⟩
  | leave => exact ⟨ha.cursor, ha.mark⟩
  | unwind => exact ⟨ha.cursor, ha.cursor⟩

theorem ahead_cold : Place.Ahead q {} := ⟨by simp, by simp⟩

theorem leads_step (hs : s.Sound) (h : Step s ev s') (hq : Reached k q s.host.ledger)
    (hl : Leads k q s) : Leads k q s' := by
  intro p' hp'
  rcases place_step hs h hp' with ⟨-, rfl⟩ | ⟨p, hp, hm⟩
  · exact ahead_cold
  · exact ahead_step (Or.inl hq) (hl p hp) hm

/-- The cursor that a pass is given is where the passes are. -/
theorem leads_acquire {r : Request} {l : Lease} {w : Watermark} (hs : s.Sound)
    (h : Step s (.ask t n r ⟨.acquire k, l⟩) s') (hl : Leads k q s) (hw : l.cursor = some w) :
    q ≤ w.sequence := by
  cases h with
  | ask hst hr =>
    obtain ⟨i, hlease, hfree, hold, -⟩ :=
      Cursor.Cache.acquire_spec hs.cursors (ask_granted hs hst hr).2.2.2.2
    simp only [Cursor.Answer.leased.injEq] at hlease
    rcases hold with hold | ⟨-, rfl⟩
    · refine (hl _ (.free ⟨hold, (hs.cursors.quiet i hfree).1⟩ hfree)).cursor w ?_
      exact hlease.2.symm.trans hw
    · rw [hlease.2, Cursor.Cache.slot_outside (Nat.le_refl _)] at hw
      cases hw

/-- No pass lags behind an acknowledged position, as long as something holds that every step keeps and
under which no pass is given a cursor that does. -/
theorem never_lags_of {P : System → Prop} (hs : s.Sound) (hq : Reached k q s.host.ledger) (hp : P s)
    (h : Run (RegisteredStep k) s tr s')
    (hstep : ∀ ev ∈ tr, ∀ {s₁ s₂}, s₁.Sound → Step s₁ ev s₂ → Reached k q s₁.host.ledger → P s₁ → P s₂)
    (hacquire : ∀ {s₁ s₂ t n r l w}, s₁.Sound → Step s₁ (.ask t n r ⟨.acquire k, l⟩) s₂ → P s₁ →
      l.cursor = some w → q ≤ w.sequence) :
    P s' ∧ ∀ n, ¬ Lags k q n tr := by
  induction h with
  | nil => exact ⟨hp, by simp [Lags]⟩
  | snoc h he ih =>
    obtain ⟨hp₁, hnone⟩ := ih fun ev hev => hstep ev (List.mem_append_left _ hev)
    have hs₁ := sound_run hs (run_mono (fun _ _ _ h => h.step) h)
    refine ⟨hstep _ (by simp) hs₁ he.step (beyond_run hs hq h).1 hp₁, ?_⟩
    rintro n ⟨t, r, l, w, hm, hw, hlt⟩
    rcases List.mem_append.1 hm with hm | hm
    · exact hnone n ⟨t, r, l, w, hm, hw, hlt⟩
    · obtain rfl := List.mem_singleton.1 hm
      have := hacquire hs₁ he.step hp₁ hw
      omega

/-- As long as no place was behind an acknowledged position, no pass lags behind it. -/
theorem never_lags (hs : s.Sound) (hq : Reached k q s.host.ledger) (hl : Leads k q s)
    (h : Run (RegisteredStep k) s tr s') : Leads k q s' ∧ ∀ n, ¬ Lags k q n tr :=
  never_lags_of hs hq hl h (fun _ _ _ _ => leads_step) leads_acquire

end DurableTopic.Store

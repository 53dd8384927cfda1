import DurableTopic.Proofs.Batching
import DurableTopic.Proofs.Redelivery
/-! New subscribers. A record that is created starts behind the last message, but its passes resume
from the cursor, which a pass may have left before there was a record. -/
namespace DurableTopic

namespace Repository.Ledger

variable {spell : String → String} {l l' : Ledger} {d : String} {info : Subscription}

/-- A subscriber that is created and not retroactive starts behind the last message. -/
theorem evolves_subscribe
    (h : Evolves spell ((Store.Request.subscribe info false).mayCall d) l l')
    (hn : l.record info.key = none) : l'.rows = l.rows ∧
      ∀ x, l'.record info.key = some x → x.acked = l.startFor false := by
  induction h with
  | refl => exact ⟨rfl, by simp [hn]⟩
  | @call l₁ l₂ c _ _ hc ha ih =>
    obtain ⟨hrows, hrec⟩ := ih
    cases c <;> simp only [Store.Request.mayCall] at hc
    obtain ⟨-, hkey, rfl⟩ := hc
    rcases wrote_or_same ha with rfl | rfl
    · refine ⟨hrows, fun x hx => ?_⟩
      simp only [put, update, hkey, if_true] at hx
      cases hold : l₁.record info.key with
      | none =>
        simp only [hold, Option.some.injEq] at hx
        simp [← hx, startFor, hrows]
      | some y =>
        simp only [hold, Option.some.injEq] at hx
        simp [← hx, hrec y hold]
    · exact ⟨hrows, hrec⟩

theorem startFor_mem (h : l.rows ≠ []) :
    ∃ r ∈ l.rows, (l.startFor false).sequence = r.sequence := by
  refine ⟨l.rows.getLast h, List.getLast_mem h, ?_⟩
  simp [startFor, List.getLast?_eq_some_getLast h]

end Repository.Ledger
namespace Store

open Cursor (Thread Slot)
open Repository (Ledger)

/-- What the calls of a subscriber that are made from now on offer while it is registered. -/
def LaterOffers (k : SubscriberKey) (s : System) (P : Request → Row → Prop) : Prop :=
  ∀ tr s', Run (RegisteredStep k) s tr s' → ∀ t n r o a, .ask t n r ⟨.offer o, a⟩ ∈ tr →
    s.count ≤ n → r.redelivers k → ∃ x ∈ s'.host.ledger.rows, o.IsOf x ∧ P r x

/-- What the passes of a subscriber offer first is the first message above a position, unless their
cursor is given up. -/
def FirstOffers (k : SubscriberKey) (s : System) (w : Watermark) : Prop :=
  ∀ tr s' s'' t n r o a, Run Step s tr s' → (∀ r ∈ calls tr, r.forgets k = false) →
    accepted k tr = [] → Step s' (.ask t n r ⟨.offer o, a⟩) s'' → r.batches k →
      ∃ x rest, s'.host.ledger.above w = x :: rest ∧ o.IsOf x

/-- No pass goes back behind what it keeps. -/
def Forward (k : SubscriberKey) (s : System) : Prop :=
  ∀ p, At k s p → ∀ c w, p.cursor = some c → p.mark = some w → c.sequence ≤ w.sequence

variable {k : SubscriberKey} {tr : List Event} {s s' : System} {ev : Event} {n : Nat} {t : Thread}
  {q : Int} {info : Subscription}

theorem forward_step (hs : s.Sound) (h : Step s ev s') (hf : Forward k s) : Forward k s' := by
  intro p' hp' c w hc hw
  rcases place_step hs h hp' with ⟨-, rfl⟩ | ⟨p, hp, hm⟩
  · cases hc
  cases hm with
  | load => cases hc
  | undo => cases hc
  | keep =>
    cases hc
    cases hw
    exact Int.le_refl _
  | @accept _ _ _ _ _ v row _ _ _ habove =>
    cases hw
    have hmem : row ∈ s.host.ledger.above v := by simp [habove]
    exact Int.le_trans (hf _ hp c v hc rfl) (Int.le_of_lt (Ledger.mem_above.1 hmem).2)
  | stay => exact hf _ hp c w hc hw
  | scan => exact hf _ hp c w hc hw
  | leave => exact hf _ hp c w hc hw
  | unwind =>
    cases hc
    cases hw
    exact Int.le_refl _

theorem forward_reachable (hs : s.Reachable) : Forward k s := by
  obtain ⟨s₀, tr, ho, hr⟩ := hs
  induction hr with
  | nil =>
    intro p hp c w hc
    cases hp with
    | cold => cases hc
    | free hl => exact absurd hl.mapped (by simp [ho.cursors])
    | held _ hu => exact absurd hu.live.mapped (by simp [ho.cursors])
  | snoc h he ih => exact forward_step (sound_run (sound_opened ho) h) he ih

/-- A thread that is alone sees the cursor of a subscriber. -/
theorem peek_alone (hs : s.Sound) (ha : s.Alone t) :
    s.host.cursors.call t (.peek k) = some (.shown (s.host.cursors.shown k), s.host.cursors) := by
  refine Cursor.Cache.peek_own hs.cursors fun i u _ hu => ?_
  obtain ⟨f, hf, -⟩ := hs.held u i hu
  refine Classical.byContradiction fun hne => ?_
  simp [ha u hne] at hf

/-- While a thread is alone and is in a call that is no pass, the passes are at the cursor that it
sees, or past it. -/
theorem leads_of_shown {f : Frame} {below : List Frame} (hs : s.Sound) (ha : s.Alone t)
    (hst : s.stack t = f :: below) (hb : f.request.batches k = false) (hf : Forward k s)
    (hq : ∀ w, s.host.cursors.shown k = some w → q ≤ w.sequence) : Leads k q s := by
  intro p hp
  cases hp with
  | cold => exact ahead_cold
  | @free i hl hfree =>
    have hwater : ∀ w, (s.host.cursors.slot i).watermark = some w → q ≤ w.sequence := by
      intro w hw
      refine hq w ?_
      simp only [Cursor.Cache.shown, hl.mapped, Option.bind_some, Slot.shownToHolder,
        hs.cursors.quiet i hfree, Bool.or_self, Bool.false_eq_true, if_false]
      exact hw
    exact ⟨hwater, hwater⟩
  | @held u g i hg hu =>
    obtain rfl : u = t := by
      refine Classical.byContradiction fun hne => ?_
      simp [ha u hne] at hg
    rw [hst] at hg
    rcases List.mem_cons.1 hg with rfl | hgb
    · exact absurd hu.batches (by simp [hb])
    have hgs := hs.frames u g (by rw [hst]; exact List.mem_cons_of_mem _ hgb)
    have hlisten := listens_of_atListener hgs (hs.waits u f below hst g hgb)
    obtain ⟨c, hc⟩ := Option.isSome_iff_exists.1 (hlisten.ready k hu.batches).2.1
    have hwater := (hgs.leased i hu.lease).2.1
    have hshown : s.host.cursors.shown k = some c := by
      simp only [Cursor.Cache.shown, hu.live.mapped, Option.bind_some, Slot.shownToHolder,
        hu.live.kept, (hs.cursors.fresh k i hu.live.mapped).2, Bool.or_self, Bool.false_eq_true,
        if_false]
      exact hwater.trans hc
    have hat := At.held (by rw [hst]; exact List.mem_cons_of_mem _ hgb) hu
    refine ⟨fun w hw => ?_, fun w hw => Int.le_trans (hq c hshown) (hf _ hat c w hc hw)⟩
    obtain rfl : c = w := Option.some.inj (hc.symm.trans hw)
    exact hq c hshown

/-- A commit leaves the passes of a subscriber where they are. -/
theorem leads_commit {r : Request} (hs : s.Sound) (h : Step s (.ask t n r ⟨.commit, .ok ()⟩) s')
    (hl : Leads k q s) : Leads k q s' := by
  intro p' hp'
  rcases place_step hs h hp' with ⟨-, rfl⟩ | ⟨p, hp, hm⟩
  · exact ahead_cold
  · cases hm with
    | stay => exact hl p' hp
    | unwind hup => cases hup

theorem created_at_end (hs : s.Sound)
    (h : Step s (.ask t n (.subscribe info false) ⟨.commit, .ok ()⟩) s')
    (hnone : s.host.ledger.record info.key = none)
    (hnew : s'.host.ledger.record info.key ≠ none) :
    ∃ x, s'.host.ledger.record info.key = some x ∧ x.acked = s.host.ledger.startFor false := by
  rcases ledger_step hs h with hleg | ⟨u, f, -, hev, -, hevolves⟩
  · exact absurd (hleg ▸ hnone) hnew
  · have hreq : f.request = .subscribe info false := by
      injection hev with _ _ hreq
      exact hreq.symm
    rw [hreq] at hevolves
    obtain ⟨x, hx⟩ := Option.ne_none_iff_exists'.1 hnew
    exact ⟨x, hx, (Ledger.evolves_subscribe hevolves hnone).2 x hx⟩

/-- From a warm cursor on, the first message that is offered is the first above it. -/
theorem first_offers {w : Watermark} (hs : s.Sound) (hshow : s.host.cursors.Shows k (some w))
    (hpass : ∀ u, ∀ f ∈ s.stack u, f.request.batches k = false ∧ f.request.forgets k = false) :
    FirstOffers k s w := by
  intro tr s' s'' t n r o a hr hkeep hacc hstep hb
  have hs' := sound_run hs hr
  obtain ⟨settled, fresh, hi⟩ := inOrder_run (inOrder_initial hs hshow hpass) hs hr hkeep
  cases hstep with
  | @ask _ _ _ past _ next _ _ _ hst =>
    have hmem : Frame.mk n r past (.perform (.offer o) next) ∈ s'.stack t := by
      rw [hst]; exact List.mem_cons_self
    have hf := hs'.frames t _ hmem
    obtain ⟨hlisten, x, rest, ha, ho⟩ := hf.follows.1
    obtain ⟨i, hlease⟩ := Option.isSome_iff_exists.1 (hlisten.ready k hb).1
    have hl : Live k s'.host.cursors i :=
      Classical.byContradiction fun hn => hi.owned ⟨t, _, hmem, hb, i, hlease, hn⟩
    have hord := hi.ordered _ (.held hmem ⟨hb, hlease, hl⟩)
    have hseen : settled ++ fresh = [] := by
      have hlasting : lasting k tr = [] := List.sublist_nil.1 (hacc ▸ lasting_sublist)
      have hoffers : List.Forall₂ Offer.IsOf (lasting k tr) (settled ++ fresh) :=
        List.rel_append hord.lasts hord.offers
      exact List.forall₂_nil_left_iff.1 (hlasting ▸ hoffers)
    have hmark : (Frame.mk n r past (.perform (.offer o) next)).stage.mark = some w := by
      have := (hord.warm w (by simp [base])).2.2.2
      rw [hseen] at this
      exact this
    obtain ⟨-, ⟨more, habove⟩, -⟩ := offers_first (o := o) hmark (hf.scanned w hmark) ha
    exact ⟨x, rest ++ more, habove, ho⟩

/-- Nobody is behind when a record is created, unless the cursor that is there lies before a
message. -/
theorem leads_created (hs : s.Reachable)
    (h : Step s (.ask t n (.subscribe info false) ⟨.commit, .ok ()⟩) s') (ha : s.Alone t)
    (hrows : s.host.ledger.rows ≠ [])
    (hahead : ∀ w, s.host.cursors.shown k = some w → ∀ z ∈ s.host.ledger.rows,
      z.sequence ≤ w.sequence) :
    Leads k (s.host.ledger.startFor false).sequence s' := by
  have hsound := sound_reachable hs
  obtain ⟨z, hz, hlast⟩ := Ledger.startFor_mem hrows
  obtain ⟨f, below, hst, hfb⟩ : ∃ f below, s.stack t = f :: below ∧
      f.request.batches k = false := by
    cases h with
    | ask hst => exact ⟨_, _, hst, rfl⟩
  refine leads_commit hsound h (leads_of_shown hsound ha hst hfb (forward_reachable hs) ?_)
  intro w hw
  rw [hlast]
  exact hahead w hw z hz

/-- Without a pass nobody holds the slot. -/
theorem free_of_idle (hs : s.Sound)
    (hpass : ∀ u, ∀ f ∈ s.stack u, f.request.batches k = false) : s.host.cursors.Free k := by
  intro i hi
  cases hh : (s.host.cursors.slot i).holder with
  | none => rfl
  | some u =>
    obtain ⟨f, hf, hlease⟩ := hs.held u i hh
    obtain ⟨-, -, j, hb, hj⟩ := (hs.frames u f hf).leased i hlease
    simp [hpass u f hf, ← hj _ hi] at hb

/-- When a subscriber is created that is not retroactive, its later calls offer only messages that
are stored afterwards, unless the cursor that is there at that moment lies before a message: then
the first message above that cursor is what its passes offer first. -/
theorem created_subscriber_offers (hs : s.Reachable)
    (h : Step s (.ask t n (.subscribe info false) ⟨.commit, .ok ()⟩) s') (ha : s.Alone t)
    (hnone : s.host.ledger.record info.key = none)
    (hnew : s'.host.ledger.record info.key ≠ none) :
    ∃ c, s.host.cursors.call t (.peek info.key) = some (.shown c, s.host.cursors) ∧
      LaterOffers info.key s' (fun r x => (∀ y ∈ s.host.ledger.rows, y.sequence < x.sequence) ∨
        r.batches info.key ∧ ∃ w, c = some w ∧ ∃ y ∈ s.host.ledger.rows, w.sequence < y.sequence) ∧
      ∀ w, c = some w →
        (∀ u, ∀ f ∈ s.stack u, f.request.batches info.key = false ∧
          f.request.forgets info.key = false) → FirstOffers info.key s' w := by
  have hsound := sound_reachable hs
  have hsound' := sound_step hsound h
  obtain ⟨x, hx, hstart⟩ := created_at_end hsound h hnone hnew
  have hq : Reached info.key (s.host.ledger.startFor false).sequence s'.host.ledger :=
    ⟨x, hx, by simp [hstart]⟩
  refine ⟨_, peek_alone hsound ha, fun tr s'' hr u m r o a hm hn hd => ?_, fun w hw hpass => ?_⟩
  · obtain ⟨-, -, hoffers⟩ := beyond_run hsound' hq hr
    obtain ⟨y, hy, ho, hlt⟩ := hoffers u m r o a hm hn hd
    refine ⟨y, hy, ho, ?_⟩
    rcases hlt with hlt | ⟨hb, hlag⟩
    · have hge := fun z hz => Ledger.startFor_ge (r := z)
        (Repository.committed_sound hsound.backend.repository) hz
      exact Or.inl fun z hz => Int.lt_of_le_of_lt (hge z hz) hlt
    by_cases hbehind : ∃ w, s.host.cursors.shown info.key = some w ∧
        ∃ z ∈ s.host.ledger.rows, w.sequence < z.sequence
    · exact Or.inr ⟨hb, hbehind⟩
    by_cases hrows : s.host.ledger.rows = []
    · exact Or.inl (by simp [hrows])
    have hl : Leads info.key (s.host.ledger.startFor false).sequence s' := by
      refine leads_created hs h ha hrows ?_
      intro w hw z hz
      exact Int.not_lt.1 fun hlt => hbehind ⟨w, hw, z, hz, hlt⟩
    exact absurd hlag ((never_lags hsound' hq hl hr).2 m)
  · have hcur : s'.host.cursors = s.host.cursors := by
      cases h with
      | ask hst hr => exact (ask_granted hsound hst hr).2.2.2.1
    have hfree := free_of_idle hsound fun u f hf => (hpass u f hf).1
    refine first_offers hsound' ?_ fun u g hg => ?_
    · have hshow := Cursor.Cache.shows_of_free hfree
      rwa [← Cursor.Cache.shown_of_free hsound.cursors hfree, hw, ← hcur] at hshow
    · rcases request_step h hg with ⟨f, hf, -, hreq⟩ | hnew
      · exact hreq ▸ hpass u f hf
      · cases hnew

/-- A subscriber that wants only what comes. -/
def late : Subscription := { destination := "orders", key := ⟨"a", none⟩ }

/-- Two messages are stored, and the record of the subscriber is about to be committed. -/
def creating : System :=
  ((System.fresh "orders").play (System.twoNotes ++ [.call "main" (.subscribe late false) 3])).2

/-- The record is committed. -/
def created : System := ((creating.go "main").map (·.2)).getD creating

theorem late_subscriber_offers_nothing_old :
    LaterOffers late.key created fun _ x =>
      ∀ y ∈ creating.host.ledger.rows, y.sequence < x.sequence := by
  have hrun : Run Step (System.fresh "orders") _ creating := System.play_run _
  obtain ⟨-, ha⟩ := serial_run (t := "main") hrun (fun _ _ => rfl) (by decide +kernel)
  have hgo : creating.go "main" =
      some (.ask "main" 2 (.subscribe late false) ⟨.commit, .ok ()⟩, created) := rfl
  obtain ⟨c, hpeek, hlater, -⟩ := created_subscriber_offers
    ⟨_, _, System.opened_fresh "orders", hrun⟩ (System.go_step hgo) ha (by decide +kernel)
    (by decide +kernel)
  have hcold : creating.host.cursors.call "main" (.peek late.key) =
      some (.shown none, creating.host.cursors) := by decide +kernel
  obtain rfl : c = none := by simpa using (hcold.symm.trans hpeek).symm
  intro tr s' hr t n r o a hm hn hd
  obtain ⟨x, hx, ho, hnew | ⟨-, w, hw, -⟩⟩ := hlater tr s' hr t n r o a hm hn hd
  · exact ⟨x, hx, ho, hnew⟩
  · cases hw

/-- A message is stored, and a pass of a subscriber without a record finds nothing. -/
def passBefore : List Choice :=
  [.call "main" (.publish (System.note "orders" "m1")),
    .call "main" (.recoverNext late.key 5 .reference)]

/-- The subscriber is created, and a pass offers the message nevertheless. -/
theorem old_message_offered_from_warm_cursor :
    let tr₁ := ((System.fresh "orders").play passBefore).1
    let s₁ := ((System.fresh "orders").play passBefore).2
    let s₂ := (s₁.play [.call "main" (.subscribe late false)]).2
    let pass := [.call "main" (.recoverNext late.key 5 .reference), .hear "main" (.ok true),
      .hear "main" (.ok true)]
    (System.fresh "orders").Opened ∧ Run SerialStep (System.fresh "orders") tr₁ s₁ ∧
      Run SerialStep s₁ (s₁.play [.call "main" (.subscribe late false)]).1 s₂ ∧
      s₁.host.ledger.record late.key = none ∧
      (s₂.host.ledger.record late.key).map (·.acked) = some ⟨1, 0⟩ ∧
      (∃ x ∈ s₁.host.ledger.rows, (Offer.reference ⟨"m1", 1⟩).IsOf x) ∧
      Run (RegisteredStep late.key) s₂ (s₂.play pass).1 (s₂.play pass).2 ∧
      (∀ u, s₂.stack u = []) ∧
      Offer.reference ⟨"m1", 1⟩ ∈ accepted late.key (s₂.play pass).1 := by
  intro tr₁ s₁ s₂ pass
  have hopen := System.opened_fresh "orders"
  have h₁ := System.play_run (s := System.fresh "orders") passBefore
  have h₂ := System.play_run (s := s₁) [.call "main" (.subscribe late false)]
  obtain ⟨hserial₁, ha₁⟩ := serial_run (t := "main") h₁ (fun _ _ => rfl) (by decide +kernel)
  obtain ⟨hserial₂, ha₂⟩ := serial_run h₂ ha₁ (by decide +kernel)
  have hkept := registered_run (k := late.key) (sound_run (sound_opened hopen) (run_trans h₁ h₂))
    (System.play_run (s := s₂) pass) (by decide +kernel)
    (requests_run (P := fun r => r.deletes = false) (run_trans h₁ h₂) (by simp [hopen.stack])
      (by decide +kernel)) (by decide +kernel)
  refine ⟨hopen, hserial₁, hserial₂, by decide +kernel, by decide +kernel, ?_, hkept.1, fun u => ?_,
    by decide +kernel⟩
  · obtain ⟨x, hx, hid, hseq⟩ : ∃ x ∈ s₁.host.ledger.rows, x.id = "m1" ∧ x.sequence = 1 := by
      decide +kernel
    exact ⟨x, hx, Or.inl (by rw [hid, hseq]; rfl)⟩
  · by_cases hu : u = "main"
    · have hempty : (s₂.stack "main").isEmpty = true := by decide +kernel
      exact hu ▸ List.isEmpty_iff.1 hempty
    · exact ha₂ u hu

end Store
end DurableTopic

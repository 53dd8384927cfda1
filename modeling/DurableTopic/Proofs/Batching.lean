import DurableTopic.Proofs.Places
import DurableTopic.Proofs.Play
import Mathlib.Data.List.Forall2
import Mathlib.Data.List.Induction
/-! Batches in order: as long as nobody gives up a subscriber's cursor, its passes together deliver
the stored messages one after the other, whoever runs them and however they end. A pass that ends by
an object that is no exception delivers what it accepted once more, with the next pass. -/
namespace DurableTopic.Store

open Cursor (Thread)
open Repository (Ledger)

/-- What passes took: up to the position that was kept last, and since then. -/
structure Takings where
  settled : List Offer := []
  fresh : List Offer := []

/-- A pass that is unwound loses what it took since it kept a position. -/
def Takings.next (k : SubscriberKey) (T : Takings) (ev : Event) : Takings :=
  if ev.unwinds k then { T with fresh := [] }
  else match ev.keeps k with
    | some _ => { settled := T.settled ++ T.fresh }
    | none => { T with fresh := T.fresh ++ (ev.accepts k).toList }

def takings (k : SubscriberKey) (tr : List Event) : Takings := tr.foldl (Takings.next k) {}

/-- What the listeners of the passes of a subscriber accepted, in order, but for what passes lost
that were unwound. -/
def lasting (k : SubscriberKey) (tr : List Event) : List Offer :=
  (takings k tr).settled ++ (takings k tr).fresh

/-- Where the passes of a subscriber start: at its cursor, if it was warm, or at the position that
the first of them loaded. -/
def base (b₀ : Option Watermark) (k : SubscriberKey) (tr : List Event) : Option Watermark :=
  b₀.or (loaded k tr)

/-- The passes of a subscriber have delivered some rows: their cursor is where those end that are
settled, and their place is where all of them end. -/
structure Ordered (b₀ : Option Watermark) (k : SubscriberKey) (tr : List Event) (l : Ledger)
    (settled fresh : List Row) (p : Place) : Prop where
  lasts : List.Forall₂ Offer.IsOf (takings k tr).settled settled
  offers : List.Forall₂ Offer.IsOf (takings k tr).fresh fresh
  cold : base b₀ k tr = none → settled = [] ∧ fresh = [] ∧ p.cursor = none ∧
    ∀ w, p.mark = some w → Loads k w tr
  warm : ∀ w, base b₀ k tr = some w → (b₀ = some w ∨ Loads k w tr) ∧
    l.Delivered w (settled ++ fresh) ∧ p.cursor = some (Ledger.reach w settled) ∧
    p.mark = some (Ledger.reach w (settled ++ fresh))

/-- The passes of a subscriber are in order, and nobody gives up their cursor. -/
structure InOrder (b₀ : Option Watermark) (k : SubscriberKey) (tr : List Event) (s : System)
    (settled fresh : List Row) : Prop where
  ordered : ∀ p, At k s p → Ordered b₀ k tr s.host.ledger settled fresh p
  owned : ¬ Stray k s
  quiet : ∀ t, ∀ f ∈ s.stack t, f.request.forgets k = false

variable {b₀ : Option Watermark} {k : SubscriberKey} {tr : List Event} {s s' : System}
  {settled fresh : List Row} {t : Thread} {ev : Event} {l l' : Ledger} {p p' : Place}

theorem takings_snoc : takings k (tr ++ [ev]) = (takings k tr).next k ev := by
  simp [takings, List.foldl_append]

theorem next_idle {T : Takings} (h : ev.Idle k) : T.next k ev = T := by
  simp [Takings.next, h.accepts, h.keeps, h.unwinds]

/-- What lasts is accepted, and without a pass that is unwound that is everything. -/
theorem lasting_sublist : (lasting k tr).Sublist (accepted k tr) := by
  induction tr using List.reverseRecOn with
  | nil => exact List.Sublist.refl _
  | append_singleton tr ev ih =>
    rw [lasting] at ih
    rw [lasting, takings_snoc, accepted_snoc, Takings.next]
    split
    · have hsettled := (List.sublist_append_left _ _).trans ih
      simpa using hsettled.trans (List.sublist_append_left _ _)
    · split
      · simpa using ih.trans (List.sublist_append_left _ _)
      · rw [← List.append_assoc]
        exact ih.append (List.Sublist.refl _)

theorem lasting_eq_accepted (h : ∀ ev ∈ tr, ev.unwinds k = false) :
    lasting k tr = accepted k tr := by
  induction tr using List.reverseRecOn with
  | nil => rfl
  | append_singleton tr ev ih =>
    have ih := ih fun e he => h e (List.mem_append_left _ he)
    rw [lasting] at ih
    rw [lasting, takings_snoc, accepted_snoc, ← ih, Takings.next, h ev (by simp)]
    simp only [Bool.false_eq_true, if_false]
    split
    · rename_i hkeep
      simp [accepts_of_keeps hkeep]
    · simp

theorem base_snoc : base b₀ k (tr ++ [ev]) = (base b₀ k tr).or (ev.keeps k) := by
  simp [base, loaded_snoc, Option.or_assoc]

theorem base_nil : base b₀ k [] = b₀ := Option.or_none

theorem base_kept (hkeep : ev.keeps k = none) : base b₀ k (tr ++ [ev]) = base b₀ k tr := by
  simp [base_snoc, hkeep]

theorem ordered_grow (h : Ordered b₀ k tr l settled fresh p) (hl : l'.Sound)
    (hr : l.rows <+: l'.rows) : Ordered b₀ k tr l' settled fresh p := by
  refine ⟨h.lasts, h.offers, h.cold, fun w hw => ?_⟩
  obtain ⟨hload, hd, hp⟩ := h.warm w hw
  exact ⟨hload, Ledger.delivered_grow hl hr hd, hp⟩

/-- Nothing is accepted or kept, and the position stays. -/
theorem ordered_stay (h : Ordered b₀ k tr l settled fresh p) (hidle : ev.Idle k)
    (hcursor : p'.cursor = p.cursor) (hmark : p'.mark = p.mark) :
    Ordered b₀ k (tr ++ [ev]) l settled fresh p' := by
  have hbase : base b₀ k (tr ++ [ev]) = base b₀ k tr := base_kept hidle.keeps
  have htaken : takings k (tr ++ [ev]) = takings k tr := takings_snoc.trans (next_idle hidle)
  refine ⟨htaken ▸ h.lasts, htaken ▸ h.offers, fun hn => ?_, fun w hw => ?_⟩
  · obtain ⟨hs, hf, hc, hm⟩ := h.cold (hbase ▸ hn)
    exact ⟨hs, hf, hcursor.trans hc, fun w hw => loads_snoc (hm w (hmark ▸ hw))⟩
  · obtain ⟨hload, hd, hc, hm⟩ := h.warm w (hbase ▸ hw)
    exact ⟨hload.imp id loads_snoc, hd, hcursor.trans hc, hmark.trans hm⟩

/-- As long as nothing is kept, a pass may load a position, and may forget it. -/
theorem ordered_unkept {m m' : Option Watermark} {rows rows' : List Row}
    (h : Ordered b₀ k tr l settled fresh ⟨none, m, rows⟩) (hidle : ev.Idle k)
    (hload : ∀ w, m' = some w → Loads k w (tr ++ [ev])) :
    Ordered b₀ k (tr ++ [ev]) l settled fresh ⟨none, m', rows'⟩ := by
  have hbase : base b₀ k (tr ++ [ev]) = base b₀ k tr := base_kept hidle.keeps
  have htaken : takings k (tr ++ [ev]) = takings k tr := takings_snoc.trans (next_idle hidle)
  refine ⟨htaken ▸ h.lasts, htaken ▸ h.offers, fun hn => ?_, fun w hw => ?_⟩
  · obtain ⟨hs, hf, -⟩ := h.cold (hbase ▸ hn)
    exact ⟨hs, hf, rfl, hload⟩
  · have := (h.warm w (hbase ▸ hw)).2.2.1
    simp at this

/-- The position that is kept is where the passes are, also if it is the first one. -/
theorem ordered_keep {c : Option Watermark} {w : Watermark} {rows : List Row}
    (h : Ordered b₀ k tr l settled fresh ⟨c, some w, rows⟩) (hup : ev.unwinds k = false)
    (hkeep : ev.keeps k = some w) :
    Ordered b₀ k (tr ++ [ev]) l (settled ++ fresh) [] ⟨some w, some w, rows⟩ := by
  have hbase : base b₀ k (tr ++ [ev]) = (base b₀ k tr).or (some w) := by simp [base_snoc, hkeep]
  have htaken : takings k (tr ++ [ev]) = ⟨lasting k tr, []⟩ := by
    simp [takings_snoc, Takings.next, hup, hkeep, lasting]
  refine ⟨htaken ▸ List.rel_append h.lasts h.offers, htaken ▸ .nil, fun hn => by simp [hbase] at hn,
    fun v hv => ?_⟩
  rw [hbase] at hv
  rw [List.append_nil]
  cases hb : base b₀ k tr with
  | none =>
    obtain ⟨rfl, rfl, -, hm⟩ := h.cold hb
    obtain rfl : w = v := by simpa [hb] using hv
    exact ⟨Or.inr (loads_snoc (hm w rfl)), Ledger.delivered_nil, rfl, rfl⟩
  | some v' =>
    obtain rfl : v' = v := by simpa [hb] using hv
    obtain ⟨hload, hd, -, hm⟩ := h.warm v' hb
    exact ⟨hload.imp id loads_snoc, hd, hm, hm⟩

/-- The row that is accepted is the first above where the passes are, so nothing is left out. -/
theorem ordered_accept {c w : Watermark} {row : Row} {rest rows : List Row} {o : Offer}
    (h : Ordered b₀ k tr l settled fresh ⟨some c, some w, rows⟩) (hl : l.Sound)
    (habove : l.above w = row :: rest) (ho : o.IsOf row) (hacc : ev.accepts k = some o)
    (hkeep : ev.keeps k = none) (hup : ev.unwinds k = false) :
    Ordered b₀ k (tr ++ [ev]) l settled (fresh ++ [row]) ⟨some c, some row.mark, p.rows⟩ := by
  have hbase : base b₀ k (tr ++ [ev]) = base b₀ k tr := base_kept hkeep
  have htaken : takings k (tr ++ [ev]) = ⟨(takings k tr).settled, (takings k tr).fresh ++ [o]⟩ := by
    simp [takings_snoc, Takings.next, hup, hkeep, hacc]
  refine ⟨htaken ▸ h.lasts, htaken ▸ List.rel_append h.offers (.cons ho .nil), fun hn => ?_,
    fun v hv => ?_⟩
  · have := (h.cold (hbase ▸ hn)).2.2.1
    simp at this
  · obtain ⟨hload, hd, hc, hm⟩ := h.warm v (hbase ▸ hv)
    obtain rfl : w = Ledger.reach v (settled ++ fresh) := Option.some.inj hm
    rw [← List.append_assoc]
    exact ⟨hload.imp id loads_snoc, Ledger.delivered_snoc hl hd habove, hc, by simp [-List.append_assoc]⟩

/-- A pass that is unwound falls back to what is settled. -/
theorem ordered_unwind {c : Watermark} {m : Option Watermark} {rows : List Row}
    (h : Ordered b₀ k tr l settled fresh ⟨some c, m, rows⟩) (hl : l.Sound) (hup : ev.unwinds k) :
    Ordered b₀ k (tr ++ [ev]) l settled [] ⟨some c, some c, []⟩ := by
  have hbase : base b₀ k (tr ++ [ev]) = base b₀ k tr := base_kept (takes_nothing hup).2
  have htaken : takings k (tr ++ [ev]) = ⟨(takings k tr).settled, []⟩ := by
    simp [takings_snoc, Takings.next, hup]
  refine ⟨htaken ▸ h.lasts, htaken ▸ .nil, fun hn => ?_, fun v hv => ?_⟩
  · have := (h.cold (hbase ▸ hn)).2.2.1
    simp at this
  · obtain ⟨hload, hd, hc, -⟩ := h.warm v (hbase ▸ hv)
    have hpre := (List.prefix_append settled fresh).trans (Ledger.delivered_prefix hd)
    rw [List.append_nil]
    exact ⟨hload.imp id loads_snoc, Ledger.delivered_of_prefix hl hpre, hc, hc⟩

/-- However the place moves, the passes stay in order. -/
theorem ordered_step (h : Ordered b₀ k tr l settled fresh p) (hl : l.Sound)
    (hm : Place.Step k l False ev p p') :
    ∃ settled fresh, Ordered b₀ k (tr ++ [ev]) l settled fresh p' := by
  cases hm with
  | stay hn => exact ⟨settled, fresh, ordered_stay h (hn.resolve_left id) rfl rfl⟩
  | load hb =>
    refine ⟨settled, fresh, ordered_unkept h ⟨rfl, rfl, rfl⟩ ?_⟩
    rintro w ⟨⟩
    exact ⟨_, _, _, _, hb, List.mem_append_right _ (List.mem_singleton.2 rfl)⟩
  | undo => exact ⟨settled, fresh, ordered_unkept h ⟨rfl, rfl, rfl⟩ (by simp)⟩
  | scan => exact ⟨settled, fresh, ordered_stay h ⟨rfl, rfl, rfl⟩ rfl rfl⟩
  | keep hb => exact ⟨_, _, ordered_keep h rfl (by simp [Event.keeps, hb])⟩
  | leave => exact ⟨settled, fresh, ordered_stay h ⟨rfl, rfl, rfl⟩ rfl rfl⟩
  | accept hb habove ho =>
    exact ⟨_, _, ordered_accept (p := ⟨none, none, _⟩) h hl habove ho
      (by simp [Event.accepts, hb]) rfl rfl⟩
  | unwind hup => exact ⟨_, _, ordered_unwind h hl hup⟩

theorem inOrder_step (hi : InOrder b₀ k tr s settled fresh) (hs : s.Sound) (h : Step s ev s')
    (hkeep : ∀ r, ev.call? = some r → r.forgets k = false) :
    ∃ settled fresh, InOrder b₀ k (tr ++ [ev]) s' settled fresh := by
  have hs' := sound_step hs h
  have hup : ev.givesUp k = false := by
    refine Bool.eq_false_iff.2 fun hup => ?_
    obtain ⟨t, f, hf, hforget⟩ := forgets_of_givesUp hs h hup
    simp [hi.quiet t f hf] at hforget
  obtain ⟨p', hp'⟩ := at_total hs' (k := k)
  rcases place_step hs h hp' with ⟨hgive, -⟩ | ⟨p, hp, hm⟩
  · simp [hup] at hgive
  have hm : Place.Step k s.host.ledger False ev p p' := by
    have := hi.owned
    simpa [this] using hm
  obtain ⟨settled, fresh, hord⟩ := ordered_step (hi.ordered p hp)
    (Repository.committed_sound hs.backend.repository) hm
  refine ⟨settled, fresh, fun q hq => ?_, fun hn => hi.owned (stray_step hs h hup hn), fun u g hg => ?_⟩
  · obtain rfl := at_unique hs' hp' hq
    exact ordered_grow hord (Repository.committed_sound hs'.backend.repository) (rows_step hs h)
  · rcases request_step h hg with ⟨f, hf, -, hr⟩ | hnew
    · exact hr ▸ hi.quiet u f hf
    · exact hkeep _ hnew

theorem inOrder_run (hi : InOrder b₀ k [] s [] []) (hs : s.Sound) (h : Run Step s tr s')
    (hkeep : ∀ r ∈ calls tr, r.forgets k = false) :
    ∃ settled fresh, InOrder b₀ k tr s' settled fresh := by
  induction h with
  | nil => exact ⟨[], [], hi⟩
  | snoc h he ih =>
    obtain ⟨settled, fresh, hi⟩ := ih fun r hm => hkeep r (mem_calls_left hm)
    exact inOrder_step hi (sound_run hs h) he fun r hr => hkeep r (mem_calls_last hr)

theorem inOrder_initial (hs : s.Sound) (hshow : s.host.cursors.Shows k b₀)
    (hpass : ∀ t, ∀ f ∈ s.stack t, f.request.batches k = false ∧ f.request.forgets k = false) :
    InOrder b₀ k [] s [] [] := by
  have hfree := Cursor.Cache.free_of_shows hshow
  have hfound : b₀ = (s.host.cursors.mapped.find? k).bind fun i =>
      (s.host.cursors.slot i).watermark := by
    have := Cursor.Cache.shows_of_free hfree ""
    rw [hshow] at this
    simpa using this
  have hplace : ∀ p, At k s p → p.cursor = b₀ ∧ p.mark = b₀ := by
    intro p hp
    cases hp with
    | cold hn =>
      cases hm : s.host.cursors.mapped.find? k with
      | none => simp [hfound, hm]
      | some i => exact absurd ⟨hm, (hs.cursors.quiet i (hfree i hm)).1⟩ (hn i)
    | free hl => simp [hfound, hl.mapped]
    | held hf hu => exact absurd hu.batches (by simp [(hpass _ _ hf).1])
  refine ⟨fun p hp => ⟨.nil, .nil, fun hn => ?_, fun w hw => ?_⟩, ?_, fun t f hf => (hpass t f hf).2⟩
  · obtain ⟨hc, hm⟩ := hplace p hp
    rw [base_nil] at hn
    exact ⟨rfl, rfl, hc.trans hn, by simp [hm, hn]⟩
  · obtain ⟨hc, hm⟩ := hplace p hp
    rw [base_nil] at hw
    exact ⟨Or.inl hw, Ledger.delivered_nil, by simp [hc, hw], by simp [hm, hw]⟩
  · rintro ⟨t, f, hf, hb, -⟩
    simp [(hpass t f hf).1] at hb

/-- Between passes the cursor is where the passes have come to. -/
theorem shows_of_inOrder (hi : InOrder b₀ k tr s settled fresh) (hs : s.Sound)
    (hf : s.host.cursors.Free k) :
    s.host.cursors.Shows k ((base b₀ k tr).map (Ledger.reach · (settled ++ fresh))) := by
  have hplace : ∀ p, At k s p → p.cursor = p.mark →
      p.mark = (base b₀ k tr).map (Ledger.reach · (settled ++ fresh)) := by
    intro p hp hcm
    have hord := hi.ordered p hp
    cases hb : base b₀ k tr with
    | none => exact hcm ▸ (hord.cold hb).2.2.1
    | some w => exact (hord.warm w hb).2.2.2
  have hshow := Cursor.Cache.shows_of_free hf
  cases hm : s.host.cursors.mapped.find? k with
  | none =>
    have := hplace {} (.cold fun i hl => by simpa [hm] using hl.mapped) rfl
    simpa [hm, ← this] using hshow
  | some i =>
    have := hplace _ (.free ⟨hm, (hs.cursors.quiet i (hf i hm)).1⟩ (hf i hm)) rfl
    simpa [hm, ← this] using hshow

/-- A pass that is over has left its slot. -/
theorem free_of_release {n i : Nat} {r : Request} {x : Unit}
    (hi : InOrder b₀ k tr s settled fresh) (hs : s.Sound)
    (h : Step s (.ask t n r ⟨.release i, x⟩) s') (hb : r.batches k) :
    s'.host.cursors.Free k := by
  cases h with
  | ask hst hr =>
    have hmem := hst ▸ List.mem_cons_self
    have hg := (ask_granted hs hst hr).2.2.2
    have hf := hs.frames t _ hmem
    have hlease := hf.follows.1.2.1
    have hl : Live k s.host.cursors i :=
      Classical.byContradiction fun hn => hi.owned ⟨t, _, hmem, hb, i, hlease, hn⟩
    intro j hj
    have hj : s.host.cursors.mapped.find? k = some j := by
      rw [← hj]; simp [hg.2, Cursor.Cache.release]
    obtain rfl : i = j := Option.some.inj (hl.mapped.symm.trans hj)
    simp [hg.2, Cursor.Cache.release, Cursor.Cache.slot_setSlot
      (Cursor.Cache.held_inside (hf.leased i hlease).1), Cursor.Slot.released]

/-- From a cold cursor, and as long as nobody resets it or deletes the subscriber, the passes of a
subscriber together deliver the first messages above the position that the first of them loaded,
in order, each once and none left out, if what passes accepted is not counted that were unwound.
Between passes, and after each, the cursor is where they have come to. -/
theorem passes_deliver_in_order (hs : s.Reachable) (hcold : s.host.cursors.Shows k none)
    (hpass : ∀ t, ∀ f ∈ s.stack t, f.request.batches k = false ∧ f.request.forgets k = false)
    (hr : Run Step s tr s')
    (hkeep : ∀ r ∈ calls tr, r.forgets k = false) :
    (lasting k tr).Sublist (accepted k tr) ∧
    ((∀ ev ∈ tr, ev.unwinds k = false) → lasting k tr = accepted k tr) ∧
    ∃ seen, List.Forall₂ Offer.IsOf (lasting k tr) seen ∧
      seen.Pairwise (fun a b => a.sequence < b.sequence) ∧
      (loaded k tr = none → seen = []) ∧
      (∀ w, loaded k tr = some w → Loads k w tr ∧ seen <+: s'.host.ledger.above w) ∧
      (s'.host.cursors.Free k ∨
          (∃ tr₀ t n r i x, tr = tr₀ ++ [.ask t n r ⟨.release i, x⟩] ∧ r.batches k) →
        s'.host.cursors.Shows k ((loaded k tr).map fun w => seen.getLast?.elim w Row.mark)) := by
  have hsound := sound_reachable hs
  have hinit := inOrder_initial hsound hcold hpass
  obtain ⟨settled, fresh, hi⟩ := inOrder_run hinit hsound hr hkeep
  have hsound' := sound_run hsound hr
  obtain ⟨p, hp⟩ := at_total hsound' (k := k)
  have hord := hi.ordered p hp
  have hledger : s'.host.ledger.Sound := Repository.committed_sound hsound'.backend.repository
  have hnone : loaded k tr = none → settled ++ fresh = [] := by
    intro hl
    obtain ⟨hs, hf, -⟩ := hord.cold hl
    rw [hs, hf, List.append_nil]
  refine ⟨lasting_sublist, lasting_eq_accepted, settled ++ fresh,
    List.rel_append hord.lasts hord.offers, ?_, hnone, fun w hw => ⟨?_, ?_⟩, fun hfree => ?_⟩
  · cases hl : loaded k tr with
    | none => simp [hnone hl]
    | some w =>
      have hpre := Ledger.delivered_prefix (hord.warm w hl).2.1
      exact (hledger.ascending.filter _).sublist hpre.sublist
  · simpa using (hord.warm w hw).1
  · exact Ledger.delivered_prefix (hord.warm w hw).2.1
  · refine shows_of_inOrder hi hsound' ?_
    rcases hfree with hfree | ⟨tr₀, t, n, r, i, x, rfl, hb⟩
    · exact hfree
    · obtain ⟨s₁, hr₁, hstep⟩ := run_snoc hr
      obtain ⟨_, _, hi₁⟩ := inOrder_run hinit hsound hr₁ fun r hm => hkeep r (mem_calls_left hm)
      exact free_of_release hi₁ (sound_run hsound hr₁) hstep hb

/-- Two messages are stored, and a subscriber is registered for both. -/
def awaited : List Choice :=
  System.twoNotes ++ [.call "main" (.subscribe { destination := "orders", key := ⟨"a", none⟩ } true)]

def awaiting : System := ((System.fresh "orders").play awaited).2

/-- Two passes take the messages one by one. -/
def twoPasses : List Choice :=
  [.call "main" (.recoverNext ⟨"a", none⟩ 1 .reference), .hear "main" (.ok true),
    .hear "main" (.ok true),
    .call "other" (.recoverNext ⟨"a", none⟩ 1 .reference), .hear "other" (.ok true),
    .hear "other" (.ok true)]

theorem awaiting_idle (t : Thread) : awaiting.stack t = [] := by
  obtain ⟨-, ha⟩ := serial_run (s := System.fresh "orders") (t := "main") (System.play_run awaited)
    (fun _ _ => rfl) (by decide +kernel)
  by_cases ht : t = "main"
  · have hempty : (awaiting.stack "main").isEmpty = true := by decide +kernel
    exact ht ▸ List.isEmpty_iff.1 hempty
  · exact ha t ht

theorem two_passes_deliver_in_order :
    ∃ seen, List.Forall₂ Offer.IsOf [.reference ⟨"m1", 1⟩, .reference ⟨"m2", 2⟩] seen ∧
      seen.Pairwise (fun a b => a.sequence < b.sequence) ∧
      seen <+: (awaiting.play twoPasses).2.host.ledger.above .start := by
  have hreach : awaiting.Reachable :=
    ⟨_, _, System.opened_fresh "orders", System.play_run awaited⟩
  obtain ⟨-, hall, seen, hoffers, hasc, -, hload, -⟩ := passes_deliver_in_order (k := ⟨"a", none⟩)
    hreach (fun _ => rfl) (fun t f hf => absurd (awaiting_idle t ▸ hf) List.not_mem_nil)
    (System.play_run twoPasses) (by decide +kernel)
  have haccepted : accepted ⟨"a", none⟩ (awaiting.play twoPasses).1 =
      [.reference ⟨"m1", 1⟩, .reference ⟨"m2", 2⟩] := by decide +kernel
  have hloaded : loaded ⟨"a", none⟩ (awaiting.play twoPasses).1 = some .start := by decide +kernel
  rw [hall (by decide +kernel), haccepted] at hoffers
  exact ⟨seen, hoffers, hasc, (hload _ hloaded).2⟩

/-- A pass takes the first message and is ended by an object that is no exception. -/
def unwoundPass : List Choice :=
  [.call "main" (.recoverNext ⟨"a", none⟩ 5 .reference), .hear "main" (.ok true),
    .hear "main" (.ok true), .hear "main" (.error (.listener .object))]

/-- The cursor stays where the pass started, and the next pass has the message accepted again. -/
theorem accepted_twice_after_object :
    let s₁ := (awaiting.play unwoundPass).2
    let tr := (awaiting.play (unwoundPass ++ twoPasses)).1
    awaiting.Reachable ∧ awaiting.host.ledger.record ⟨"a", none⟩ ≠ none ∧
      awaiting.host.cursors.Shows ⟨"a", none⟩ none ∧ (∀ t, awaiting.stack t = []) ∧
      Run Step awaiting (awaiting.play unwoundPass).1 s₁ ∧ s₁.stack "main" = [] ∧
      accepted ⟨"a", none⟩ (awaiting.play unwoundPass).1 = [.reference ⟨"m1", 1⟩] ∧
      s₁.host.cursors.Shows ⟨"a", none⟩ (some .start) ∧
      Run Step awaiting tr (awaiting.play (unwoundPass ++ twoPasses)).2 ∧
      (∀ r ∈ calls tr, r.forgets ⟨"a", none⟩ = false) ∧
      accepted ⟨"a", none⟩ tr =
        [.reference ⟨"m1", 1⟩, .reference ⟨"m1", 1⟩, .reference ⟨"m2", 2⟩] := by
  intro s₁ tr
  refine ⟨⟨_, _, System.opened_fresh "orders", System.play_run awaited⟩, by decide +kernel,
    fun _ => rfl, awaiting_idle, System.play_run _, ?_, by decide +kernel, ?_,
    System.play_run _, by decide +kernel, by decide +kernel⟩
  · exact List.isEmpty_iff.1 (by decide +kernel)
  · have hcursor : (s₁.host.cursors.slot 0).watermark = some .start := by decide +kernel
    exact hcursor ▸ Cursor.Cache.shows_of_slot (by decide +kernel) (by decide +kernel)

end DurableTopic.Store

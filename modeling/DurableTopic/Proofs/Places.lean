import DurableTopic.Proofs.Moves
/-! The place of a subscriber's passes. Between passes it is the cursor, during a pass it is where
the pass has come to, and it moves in a few ways only. -/
namespace DurableTopic.Store

open Cursor (Thread Cache Slot)
open Repository (Ledger)

/-- Where the passes of a subscriber are. -/
@[ext]
structure Place where
  /-- What its slot holds. -/
  cursor : Option Watermark := none
  mark : Option Watermark := none
  rows : List Row := []

def Stage.place (s : Stage) : Place := ⟨s.cursor, s.mark, s.rows⟩

/-- The slot of a subscriber, unless it is to be reset. -/
structure Live (k : SubscriberKey) (c : Cache) (i : Nat) : Prop where
  mapped : c.mapped.find? k = some i
  kept : (c.slot i).pendingReset = false

/-- A pass whose slot is still its subscriber's. -/
structure Under (k : SubscriberKey) (s : System) (f : Frame) (i : Nat) : Prop where
  batches : f.request.batches k
  lease : f.stage.lease = some i
  live : Live k s.host.cursors i

/-- The passes of a subscriber are at a place. Without a slot they start anew. -/
inductive At (k : SubscriberKey) (s : System) : Place → Prop where
  | cold (h : ∀ i, ¬ Live k s.host.cursors i) : At k s {}
  | free {i : Nat} (hl : Live k s.host.cursors i) (hfree : (s.host.cursors.slot i).holder = none) :
      At k s { cursor := (s.host.cursors.slot i).watermark
               mark := (s.host.cursors.slot i).watermark }
  | held {t : Thread} {f : Frame} {i : Nat} (hf : f ∈ s.stack t) (hu : Under k s f i) :
      At k s f.stage.place

/-- Some pass of a subscriber goes on although its slot was given up. -/
def Stray (k : SubscriberKey) (s : System) : Prop :=
  ∃ t, ∃ f ∈ s.stack t, f.request.batches k ∧ ∃ i, f.stage.lease = some i ∧
    ¬ Live k s.host.cursors i

/-- The cursor of a subscriber is given up. -/
def Event.givesUp (k : SubscriberKey) : Event → Bool
  | .ask _ _ _ ⟨.reset j, _⟩ | .ask _ _ _ ⟨.evict j, _⟩ => j = k
  | _ => false

/-- How the place of a subscriber's passes may move. -/
inductive Place.Step (k : SubscriberKey) (l : Ledger) (stray : Prop) :
    Event → Place → Place → Prop where
  | stay {ev : Event} {p : Place} (h : stray ∨ ev.Idle k) : Step k l stray ev p p
  | load {t : Thread} {n : Nat} {r : Request} {d : String} {w : Watermark} {m : Option Watermark}
      (hb : r.batches k) (hw : w = (l.record k).elim .start (·.acked)) :
      Step k l stray (.ask t n r ⟨.call (.load d k), .ok w⟩) ⟨none, m, []⟩ ⟨none, some w, []⟩
  | undo {t : Thread} {n : Nat} {r : Request} {f : Failure} {m : Option Watermark} :
      Step k l stray (.ask t n r ⟨.commit, .error f⟩) ⟨none, m, []⟩ ⟨none, none, []⟩
  | scan {t : Thread} {n : Nat} {r : Request} {d : String} {w : Watermark} {m : Nat}
      {a : (Effect.call (.scanAfter d k w m)).Reply} {c : Option Watermark} {rows rows' : List Row}
      (hrows : rows' <+: (l.record k).elim [] fun _ => l.above w) :
      Step k l stray (.ask t n r ⟨.call (.scanAfter d k w m), a⟩) ⟨c, some w, rows⟩
        ⟨c, some w, rows'⟩
  | keep {t : Thread} {n i : Nat} {r : Request} {x : Unit} {c : Option Watermark} {w : Watermark}
      {rows : List Row} (hb : r.batches k) :
      Step k l stray (.ask t n r ⟨.keep i w, x⟩) ⟨c, some w, rows⟩ ⟨some w, some w, rows⟩
  | leave {t : Thread} {n i : Nat} {r : Request} {x : Unit} {m : Option Watermark}
      {rows : List Row} :
      Step k l stray (.ask t n r ⟨.release i, x⟩) ⟨m, m, rows⟩ ⟨m, m, []⟩
  | accept {t : Thread} {n : Nat} {r : Request} {o : Offer} {c w : Watermark} {row : Row}
      {rest more : List Row} (hb : r.batches k) (habove : l.above w = row :: rest ++ more)
      (ho : o.IsOf row) :
      Step k l stray (.ask t n r ⟨.offer o, .ok true⟩) ⟨some c, some w, row :: rest⟩
        ⟨some c, some row.mark, rest⟩
  | unwind {ev : Event} {c : Watermark} {m : Option Watermark} {rows : List Row}
      (h : ev.unwinds k) : Step k l stray ev ⟨some c, m, rows⟩ ⟨some c, some c, []⟩

variable {k : SubscriberKey} {t u : Thread} {s s' : System} {ev : Event} {p p' : Place} {i j : Nat}
  {c c' : Cache}

theorem live_unique (h : Live k c i) (h' : Live k c j) : i = j :=
  Option.some.inj (h.mapped.symm.trans h'.mapped)

theorem live_same (hs : SameSlot k c c') : Live k c' i ↔ Live k c i := by
  constructor
  · rintro ⟨hm, hp⟩
    rw [hs.mapped] at hm
    exact ⟨hm, hs.slot i hm ▸ hp⟩
  · rintro ⟨hm, hp⟩
    exact ⟨hs.mapped.trans hm, hs.slot i hm ▸ hp⟩

/-- The passes of a subscriber are always somewhere. -/
theorem at_total (hs : s.Sound) : ∃ p, At k s p := by
  by_cases h : ∃ i, Live k s.host.cursors i
  · obtain ⟨i, hl⟩ := h
    cases hh : (s.host.cursors.slot i).holder with
    | none => exact ⟨_, .free hl hh⟩
    | some t =>
      obtain ⟨f, hf, hi⟩ := hs.held t i hh
      obtain ⟨-, -, j, hb, hj⟩ := (hs.frames t f hf).leased i hi
      exact ⟨_, .held hf ⟨hj k hl.mapped ▸ hb, hi, hl⟩⟩
  · exact ⟨{}, .cold fun i hl => h ⟨i, hl⟩⟩

/-- Only one call has a lease on a slot. -/
theorem leased_unique (hs : s.Sound) {f g : Frame} (hf : f ∈ s.stack t) (hg : g ∈ s.stack u)
    (hfi : f.stage.lease = some i) (hgi : g.stage.lease = some i) : f = g := by
  have htu : t = u := Option.some.inj
    (((hs.frames t f hf).leased i hfi).1.symm.trans ((hs.frames u g hg).leased i hgi).1)
  subst htu
  refine Classical.byContradiction fun hne => ?_
  rcases List.pairwise_iff_getElem.1 (hs.unshared t) with hun
  obtain ⟨a, ha, rfl⟩ := List.getElem_of_mem hf
  obtain ⟨b, hb, rfl⟩ := List.getElem_of_mem hg
  rcases Nat.lt_trichotomy a b with hab | rfl | hab
  · exact hun a b ha hb hab i hfi hgi
  · exact hne rfl
  · exact hun b a hb ha hab i hgi hfi

theorem at_unique (hs : s.Sound) (h : At k s p) (h' : At k s p') : p = p' := by
  cases h with
  | cold hn =>
    cases h' with
    | cold => rfl
    | free hl => exact absurd hl (hn _)
    | held _ hu => exact absurd hu.live (hn _)
  | free hl hfree =>
    cases h' with
    | cold hn => exact absurd hl (hn _)
    | free hl' => rw [live_unique hl hl']
    | held hf hu =>
      obtain rfl := live_unique hl hu.live
      have := ((hs.frames _ _ hf).leased _ hu.lease).1
      simp [hfree] at this
  | held hf hu =>
    cases h' with
    | cold hn => exact absurd hu.live (hn _)
    | free hl hfree =>
      obtain rfl := live_unique hl hu.live
      have := ((hs.frames _ _ hf).leased _ hu.lease).1
      simp [hfree] at this
    | held hg hv =>
      have hv' := hv.lease
      rw [← live_unique hu.live hv.live] at hv'
      rw [leased_unique hs hf hg hu.lease hv']

section

variable {h' : Host} {e : Effect} {a : e.Reply} {n : Nat} {r : Request} {past : List Exchange}
  {next : e.Reply → Operation (Except Failure r.Result)} {below : List Frame}

/-- The place after an answer is that of the call that moved, or it is elsewhere. -/
theorem at_ask
    (hp : At k { s.setStack t (⟨n, r, past ++ [⟨e, a⟩], next a⟩ :: below) with host := h' } p) :
    (p = {} ∧ ∀ i, ¬ Live k h'.cursors i) ∨
    (∃ i, r.batches k ∧ ((past.foldl Stage.next {}).next ⟨e, a⟩).lease = some i ∧
      Live k h'.cursors i ∧ p = ((past.foldl Stage.next {}).next ⟨e, a⟩).place) ∨
    (∃ i, Live k h'.cursors i ∧ (h'.cursors.slot i).holder = none ∧
      p = { cursor := (h'.cursors.slot i).watermark, mark := (h'.cursors.slot i).watermark }) ∨
    ∃ u g i, (u = t ∧ g ∈ below ∨ u ≠ t ∧ g ∈ s.stack u) ∧ g.request.batches k ∧
      g.stage.lease = some i ∧ Live k h'.cursors i ∧ p = g.stage.place := by
  cases hp with
  | cold hn => exact Or.inl ⟨rfl, hn⟩
  | free hl hfree => exact Or.inr (Or.inr (Or.inl ⟨_, hl, hfree, rfl⟩))
  | held hf hu =>
    rcases mem_setStack hf with ⟨-, rfl⟩ | hgu
    · have hlease := hu.lease
      rw [stage_snoc] at hlease ⊢
      exact Or.inr (Or.inl ⟨_, hu.batches, hlease, hu.live, rfl⟩)
    · exact Or.inr (Or.inr (Or.inr ⟨_, _, _, hgu, hu.batches, hu.lease, hu.live, rfl⟩))

/-- A slot stays its subscriber's, and is not reset, unless somebody asks for that. -/
theorem live_ask (hs : s.Sound) (hst : s.stack t = ⟨n, r, past, .perform e next⟩ :: below)
    (hr : Replies t s.host e a h') (he : (Event.ask t n r ⟨e, a⟩).givesUp k = false)
    (hl : Live k s.host.cursors i) : Live k h'.cursors i := by
  cases moves_of_ask (k := k) hs hst (ask_granted hs hst hr).2.2.2 with
  | aside _ hslot => exact (live_same hslot).2 hl
  | still _ hslot => exact (live_same hslot).2 hl
  | load _ hslot => exact (live_same hslot).2 hl
  | undo _ hslot => exact (live_same hslot).2 hl
  | scan _ hslot => exact (live_same hslot).2 hl
  | accept _ hslot => exact (live_same hslot).2 hl
  | unwind _ hslot => exact (live_same hslot).2 hl
  | acquire _ _ _ _ hold _ hmap hslot =>
    rcases hold with hold | ⟨hnone, -⟩
    · obtain rfl := Option.some.inj (hold.symm.trans hl.mapped)
      exact ⟨hmap, by rw [hslot]; exact hl.kept⟩
    · exact absurd hl.mapped (by simp [hnone])
  | keep _ _ _ hmap hslot =>
    refine ⟨hmap ▸ hl.mapped, ?_⟩
    rw [hslot]
    split
    · rename_i hi
      exact hi ▸ hl.kept
    · exact hl.kept
  | release _ _ _ _ hmap hslot =>
    refine ⟨hmap ▸ hl.mapped, ?_⟩
    rw [hslot]
    split
    · rfl
    · exact hl.kept
  | reset => simp [Event.givesUp] at he
  | evict => simp [Event.givesUp] at he

/-- Whoever accepts or keeps something or is unwound, and not on the subscriber's slot, is
astray. -/
theorem quiet_or_stray (hs : s.Sound) (hst : s.stack t = ⟨n, r, past, .perform e next⟩ :: below)
    (hr : Replies t s.host e a h')
    (hn : ∀ i, (past.foldl Stage.next {}).lease = some i → ¬ Live k s.host.cursors i) :
    Stray k s ∨ (Event.ask t n r ⟨e, a⟩).Idle k := by
  have hmem : Frame.mk n r past (.perform e next) ∈ s.stack t := by
    rw [hst]; exact List.mem_cons_self
  cases moves_of_ask (k := k) hs hst (ask_granted hs hst hr).2.2.2 with
  | aside hb => exact Or.inr (idle_other hb)
  | still _ _ _ hidle => exact Or.inr (hidle n)
  | keep hb hlease => exact Or.inl ⟨t, _, hmem, hb, _, hlease, hn _ hlease⟩
  | accept hb _ hlease => exact Or.inl ⟨t, _, hmem, hb, _, hlease, hn _ hlease⟩
  | unwind hb _ hlease => exact Or.inl ⟨t, _, hmem, hb, _, hlease, hn _ hlease⟩
  | _ => exact Or.inr ⟨rfl, rfl, rfl⟩

/-- A subscriber's slot that the mover neither had nor took was the subscriber's before, and is as
it was, unless it is reset now. -/
theorem slot_before (hs : s.Sound) (hst : s.stack t = ⟨n, r, past, .perform e next⟩ :: below)
    (hr : Replies t s.host e a h') (hl : Live k h'.cursors i)
    (hold : (past.foldl Stage.next {}).lease ≠ some i)
    (htaken : (s.host.cursors.slot i).holder = none → (h'.cursors.slot i).holder = none) :
    (Live k s.host.cursors i ∧ h'.cursors.slot i = s.host.cursors.slot i) ∨
    ((Event.ask t n r ⟨e, a⟩).givesUp k ∧ (s.host.cursors.slot i).holder = none ∧
      (h'.cursors.slot i).watermark = none) := by
  have hsame : SameSlot k s.host.cursors h'.cursors →
      Live k s.host.cursors i ∧ h'.cursors.slot i = s.host.cursors.slot i := by
    intro hslot
    have hbefore := (live_same hslot).1 hl
    exact ⟨hbefore, hslot.slot i hbefore.mapped⟩
  cases moves_of_ask (k := k) hs hst (ask_granted hs hst hr).2.2.2 with
  | aside _ hslot => exact Or.inl (hsame hslot)
  | still _ hslot => exact Or.inl (hsame hslot)
  | load _ hslot => exact Or.inl (hsame hslot)
  | undo _ hslot => exact Or.inl (hsame hslot)
  | scan _ hslot => exact Or.inl (hsame hslot)
  | accept _ hslot => exact Or.inl (hsame hslot)
  | unwind _ hslot => exact Or.inl (hsame hslot)
  | acquire _ _ _ hfree _ _ hmap hslot =>
    obtain rfl := Option.some.inj (hmap.symm.trans hl.mapped)
    simp [hslot, hfree] at htaken
  | @keep j _ _ _ hlease _ hmap hslot =>
    have hne : i ≠ j := by
      rintro rfl
      exact hold hlease
    have heq := (hslot i).trans (if_neg hne)
    exact Or.inl ⟨⟨hmap ▸ hl.mapped, heq ▸ hl.kept⟩, heq⟩
  | @release j _ _ hlease _ _ hmap hslot =>
    have hne : i ≠ j := by
      rintro rfl
      exact hold hlease
    have heq := (hslot i).trans (if_neg hne)
    exact Or.inl ⟨⟨hmap ▸ hl.mapped, heq ▸ hl.kept⟩, heq⟩
  | reset _ hmap hslot =>
    have heq := hslot i (hmap ▸ hl.mapped)
    have hkept := hl.kept
    rw [heq, Slot.forgotten] at hkept
    split at hkept
    · rename_i hfree
      refine Or.inr ⟨by simp [Event.givesUp], hfree, ?_⟩
      simp [heq, Slot.forgotten, hfree]
    · simp at hkept
  | evict _ hmap => exact absurd hl.mapped (by simp [hmap])

/-- The passes are where the call that moves has come to. -/
theorem place_mover (hs : s.Sound) (hst : s.stack t = ⟨n, r, past, .perform e next⟩ :: below)
    (hr : Replies t s.host e a h') (hb : r.batches k)
    (hi : ((past.foldl Stage.next {}).next ⟨e, a⟩).lease = some i) (hl : Live k h'.cursors i) :
    ∃ p, At k s p ∧ Place.Step k s.host.ledger (Stray k s) (.ask t n r ⟨e, a⟩) p
      ((past.foldl Stage.next {}).next ⟨e, a⟩).place := by
  have hmem : Frame.mk n r past (.perform e next) ∈ s.stack t := by
    rw [hst]; exact List.mem_cons_self
  have hmoved := moves_of_ask (k := k) hs hst (ask_granted hs hst hr).2.2.2
  change Moves k t s.host h' r (past.foldl Stage.next {}) e a at hmoved
  have hat : (past.foldl Stage.next {}).lease = some i → Live k s.host.cursors i →
      At k s (past.foldl Stage.next {}).place := fun hi hl => .held hmem ⟨hb, hi, hl⟩
  generalize past.foldl Stage.next {} = st at *
  cases hmoved with
  | aside hn => simp [hn] at hb
  | still _ hslot hstage hidle =>
    have := hat (hstage.lease ▸ hi) ((live_same hslot).1 hl)
    refine ⟨_, this, ?_⟩
    rw [Stage.place, Stage.place, hstage.cursor, hstage.mark, hstage.rows]
    exact .stay (Or.inr (hidle n))
  | load _ hslot hcursor hrows hw =>
    have := hat hi ((live_same hslot).1 hl)
    simp only [Stage.place, hcursor, hrows] at this
    refine ⟨_, this, ?_⟩
    simpa [Stage.place, Stage.next, hcursor, hrows] using Place.Step.load hb hw
  | undo _ hslot hcursor hrows =>
    have := hat hi ((live_same hslot).1 hl)
    simp only [Stage.place, hcursor, hrows] at this
    refine ⟨_, this, ?_⟩
    simpa [Stage.place, Stage.next, hcursor, hrows] using Place.Step.undo
  | scan _ hslot hmark hrows =>
    have := hat hi ((live_same hslot).1 hl)
    simp only [Stage.place, hmark] at this
    refine ⟨_, this, ?_⟩
    simpa [Stage.place, Stage.next, hmark] using Place.Step.scan hrows
  | @acquire l _ _ hrows hfree hold hcursor =>
    rcases hold with hold | ⟨hnone, hnew⟩
    · have hlive : Live k s.host.cursors l.slot := ⟨hold, (hs.cursors.quiet _ hfree).1⟩
      refine ⟨_, .free hlive hfree, ?_⟩
      simpa [Stage.place, Stage.next, hrows, hcursor] using Place.Step.stay (Or.inr ⟨rfl, rfl, rfl⟩)
    · refine ⟨{}, .cold fun i hi => absurd hi.mapped (by simp [hnone]), ?_⟩
      simpa [Stage.place, Stage.next, hrows, hcursor, hnew] using
        Place.Step.stay (Or.inr ⟨rfl, rfl, rfl⟩)
  | @keep j _ _ _ hlease hmark hmap hslot =>
    obtain rfl : j = i := Option.some.inj (hlease.symm.trans hi)
    have hkept := hl.kept
    rw [hslot, if_pos rfl] at hkept
    have := hat hlease ⟨hmap ▸ hl.mapped, hkept⟩
    simp only [Stage.place, hmark] at this
    refine ⟨_, this, ?_⟩
    simpa [Stage.place, Stage.next, hmark] using Place.Step.keep hb
  | release => cases hi
  | accept _ hslot hlease hcursor hmark hrows habove ho hnext =>
    rw [hnext] at hi ⊢
    have := hat hi ((live_same hslot).1 hl)
    simp only [Stage.place, hmark, hcursor, hrows] at this
    refine ⟨_, this, ?_⟩
    simpa [Stage.place, hcursor] using Place.Step.accept hb habove ho
  | unwind _ hslot _ hup hcursor hnext =>
    rw [hnext] at hi ⊢
    have := hat hi ((live_same hslot).1 hl)
    simp only [Stage.place, hcursor] at this
    refine ⟨_, this, ?_⟩
    simpa [Stage.place, hcursor] using Place.Step.unwind (hup n)
  | reset hreq => simp [hreq, Request.batches] at hb
  | evict hreq => simp [hreq, Request.batches] at hb

/-- When the slot of the call that moves is free, that call has given it back. -/
theorem place_left (hs : s.Sound) (hst : s.stack t = ⟨n, r, past, .perform e next⟩ :: below)
    (hr : Replies t s.host e a h') (hold : (past.foldl Stage.next {}).lease = some i)
    (hl : Live k h'.cursors i) (hfree : (h'.cursors.slot i).holder = none) :
    ∃ p, At k s p ∧ Place.Step k s.host.ledger (Stray k s) (.ask t n r ⟨e, a⟩) p
      ⟨(h'.cursors.slot i).watermark, (h'.cursors.slot i).watermark, []⟩ := by
  have hmem : Frame.mk n r past (.perform e next) ∈ s.stack t := by
    rw [hst]; exact List.mem_cons_self
  have hheld : (s.host.cursors.slot i).holder = some t := ((hs.frames t _ hmem).leased _ hold).1
  have hsame : ¬ SameSlot k s.host.cursors h'.cursors := by
    intro hslot
    rw [hslot.slot i (hslot.mapped ▸ hl.mapped), hheld] at hfree
    cases hfree
  cases moves_of_ask (k := k) hs hst (ask_granted hs hst hr).2.2.2 with
  | aside _ hslot => exact absurd hslot hsame
  | still _ hslot => exact absurd hslot hsame
  | load _ hslot => exact absurd hslot hsame
  | undo _ hslot => exact absurd hslot hsame
  | scan _ hslot => exact absurd hslot hsame
  | accept _ hslot => exact absurd hslot hsame
  | unwind _ hslot => exact absurd hslot hsame
  | acquire _ hlease => exact absurd (hlease.symm.trans hold) (by simp)
  | keep _ hlease _ _ hslot =>
    obtain rfl := Option.some.inj (hlease.symm.trans hold)
    simp [hslot, hheld] at hfree
  | @release j _ hb hlease hcursor hwater hmap hslot =>
    obtain rfl : i = j := Option.some.inj (hold.symm.trans hlease)
    rw [hslot, if_pos rfl]
    have hm := hmap ▸ hl.mapped
    -- What was asked of the slot meanwhile takes effect now.
    have hevict := (hs.cursors.fresh k i hm).2
    cases hreset : (s.host.cursors.slot i).pendingReset with
    | true =>
      have hn : ∀ m, ¬ Live k s.host.cursors m := by
        intro m hlive
        obtain rfl : i = m := Option.some.inj (hm.symm.trans hlive.mapped)
        exact absurd hlive.kept (by simp [hreset])
      refine ⟨{}, .cold hn, ?_⟩
      simpa [Slot.released, hreset] using Place.Step.stay (Or.inr ⟨rfl, rfl, rfl⟩)
    | false =>
      refine ⟨_, .held hmem ⟨hb, hlease, hm, hreset⟩, ?_⟩
      simpa [Stage.place, Slot.released, hreset, hevict, hwater, hcursor] using Place.Step.leave
  | reset _ hmap hslot =>
    have hkept := hl.kept
    simp [hslot _ (hmap ▸ hl.mapped), Slot.forgotten, hheld] at hkept
  | evict _ hmap => exact absurd hl.mapped (by simp [hmap])

/-- A slot that is free was free before or is given back, or it is reset now. -/
theorem place_free (hs : s.Sound) (hst : s.stack t = ⟨n, r, past, .perform e next⟩ :: below)
    (hr : Replies t s.host e a h') (hl : Live k h'.cursors i)
    (hfree : (h'.cursors.slot i).holder = none) :
    ((Event.ask t n r ⟨e, a⟩).givesUp k ∧ (h'.cursors.slot i).watermark = none) ∨
    ∃ p, At k s p ∧ Place.Step k s.host.ledger (Stray k s) (.ask t n r ⟨e, a⟩) p
      ⟨(h'.cursors.slot i).watermark, (h'.cursors.slot i).watermark, []⟩ := by
  by_cases hold : (past.foldl Stage.next {}).lease = some i
  · exact Or.inr (place_left hs hst hr hold hl hfree)
  rcases slot_before hs hst hr hl hold fun _ => hfree with ⟨hbefore, heq⟩ | ⟨hup, -, hnone⟩
  · rw [heq] at hfree ⊢
    refine Or.inr ⟨_, .free hbefore hfree, .stay (quiet_or_stray hs hst hr ?_)⟩
    intro j hj hlive
    exact hold (live_unique hlive hbefore ▸ hj)
  · exact Or.inl ⟨hup, hnone⟩

/-- Other passes stay where they are. -/
theorem place_other {g : Frame} (hs : s.Sound)
    (hst : s.stack t = ⟨n, r, past, .perform e next⟩ :: below) (hr : Replies t s.host e a h')
    (hgu : u = t ∧ g ∈ below ∨ u ≠ t ∧ g ∈ s.stack u) (hb : g.request.batches k)
    (hi : g.stage.lease = some i) (hl : Live k h'.cursors i) :
    At k s g.stage.place ∧ Place.Step k s.host.ledger (Stray k s) (.ask t n r ⟨e, a⟩)
      g.stage.place g.stage.place := by
  have hmem := mem_of_other hst hgu
  have hold := lease_other hs hst hgu hi
  have hheld : (s.host.cursors.slot i).holder = some u := ((hs.frames u g hmem).leased i hi).1
  obtain ⟨hbefore, -⟩ | ⟨-, hnone, -⟩ := slot_before hs hst hr hl hold (by simp [hheld])
  · refine ⟨.held hmem ⟨hb, hi, hbefore⟩, .stay (quiet_or_stray hs hst hr ?_)⟩
    intro j hj hlive
    exact hold (live_unique hlive hbefore ▸ hj)
  · simp [hheld] at hnone

theorem place_ask (hs : s.Sound) (hst : s.stack t = ⟨n, r, past, .perform e next⟩ :: below)
    (hr : Replies t s.host e a h')
    (hp : At k { s.setStack t (⟨n, r, past ++ [⟨e, a⟩], next a⟩ :: below) with host := h' } p') :
    ((Event.ask t n r ⟨e, a⟩).givesUp k ∧ p' = {}) ∨
      ∃ p, At k s p ∧
        Place.Step k s.host.ledger (Stray k s) (.ask t n r ⟨e, a⟩) p p' := by
  rcases at_ask hp with ⟨rfl, hn⟩ | ⟨i, hb, hi, hl, rfl⟩ | ⟨i, hl, hfree, rfl⟩ |
    ⟨u, g, i, hgu, hb, hi, hl, rfl⟩
  · cases hup : (Event.ask t n r ⟨e, a⟩).givesUp k with
    | true => exact Or.inl ⟨rfl, rfl⟩
    | false =>
      have hn : ∀ i, ¬ Live k s.host.cursors i := fun i hl => hn i (live_ask hs hst hr hup hl)
      exact Or.inr ⟨{}, .cold hn, .stay (quiet_or_stray hs hst hr fun i _ => hn i)⟩
  · exact Or.inr (place_mover hs hst hr hb hi hl)
  · exact (place_free hs hst hr hl hfree).imp (fun ⟨hup, hnone⟩ => ⟨hup, by rw [hnone]⟩) id
  · exact Or.inr ⟨_, place_other hs hst hr hgu hb hi hl⟩

/-- Whoever has a lease after an answer had it before, or was given it and its slot. -/
theorem leased_ask (hs : s.Sound) (hst : s.stack t = ⟨n, r, past, .perform e next⟩ :: below)
    (hr : Replies t s.host e a h') (hb : r.batches k)
    (hi : ((past.foldl Stage.next {}).next ⟨e, a⟩).lease = some i) :
    (past.foldl Stage.next {}).lease = some i ∨ ∃ l : Lease,
      Event.ask t n r ⟨e, a⟩ = .ask t n r ⟨.acquire k, l⟩ ∧ Live k h'.cursors i := by
  have hmoved := moves_of_ask (k := k) hs hst (ask_granted hs hst hr).2.2.2
  change Moves k t s.host h' r (past.foldl Stage.next {}) e a at hmoved
  generalize past.foldl Stage.next {} = st at *
  cases hmoved with
  | aside hn => exact absurd hb (by simp [hn])
  | still _ _ hsame => exact Or.inl (hsame.lease ▸ hi)
  | load => exact Or.inl hi
  | undo => exact Or.inl hi
  | scan => exact Or.inl hi
  | keep => exact Or.inl hi
  | release => cases hi
  | accept _ _ _ _ _ _ _ _ hnext =>
    rw [hnext] at hi
    exact Or.inl hi
  | unwind _ _ _ _ _ hnext =>
    rw [hnext] at hi
    exact Or.inl hi
  | @acquire l _ _ _ hfree _ _ hmap hslot =>
    obtain rfl : l.slot = i := Option.some.inj hi
    refine Or.inr ⟨l, rfl, hmap, ?_⟩
    rw [hslot]
    exact (hs.cursors.quiet _ hfree).1
  | reset hreq => exact absurd hb (by simp [hreq, Request.batches])
  | evict hreq => exact absurd hb (by simp [hreq, Request.batches])

end

/-- Frames that are the same, or have no lease, on the same slots have the same place. -/
theorem at_carry (hcur : s'.host.cursors = s.host.cursors)
    (hframes : ∀ u, ∀ g ∈ s'.stack u, ∀ i, g.stage.lease = some i → g ∈ s.stack u)
    (h : At k s' p) : At k s p := by
  cases h with
  | cold hn => exact .cold (hcur ▸ hn)
  | free hl hfree =>
    rw [hcur] at hl hfree ⊢
    exact .free hl hfree
  | held hf hu =>
    exact .held (hframes _ _ hf _ hu.lease) ⟨hu.batches, hu.lease, hcur ▸ hu.live⟩

/-- No event but an answer gives a lease or takes one. -/
theorem leases_carry (h : Step s ev s') (hask : ∀ t n r x, ev ≠ .ask t n r x) :
    s'.host.cursors = s.host.cursors ∧
    ∀ u, ∀ g ∈ s'.stack u, ∀ i, g.stage.lease = some i → g ∈ s.stack u := by
  cases h with
  | start r =>
    refine ⟨rfl, fun u g hg i hi => ?_⟩
    simp only [System.setStack] at hg
    split at hg
    · rename_i hu
      rcases List.mem_cons.1 hg with rfl | hg
      · cases hi
      · exact hu ▸ hg
    · exact hg
  | ask => exact absurd rfl (hask _ _ _ _)
  | finish hst =>
    exact ⟨rfl, fun _ _ hg _ _ => mem_of_finished hst hg⟩
  | disturb => exact ⟨rfl, fun _ _ hg _ _ => hg⟩

/-- The place of a subscriber's passes moves in these ways, or the passes start anew. -/
theorem place_step (hs : s.Sound) (h : Step s ev s') (hp : At k s' p') :
    (ev.givesUp k ∧ p' = {}) ∨
      ∃ p, At k s p ∧ Place.Step k s.host.ledger (Stray k s) ev p p' := by
  by_cases hask : ∀ t n r x, ev ≠ .ask t n r x
  · obtain ⟨hcur, hframes⟩ := leases_carry h hask
    refine Or.inr ⟨p', at_carry hcur hframes hp, .stay (Or.inr ?_)⟩
    cases h with
    | ask => exact absurd rfl (hask _ _ _ _)
    | _ => exact ⟨rfl, rfl, rfl⟩
  · cases h with
    | ask hst hr => exact place_ask hs hst hr hp
    | _ => exact absurd (by simp) hask

theorem live_step (hs : s.Sound) (h : Step s ev s') (he : ev.givesUp k = false)
    (hl : Live k s.host.cursors i) : Live k s'.host.cursors i := by
  cases h with
  | ask hst hr => exact live_ask hs hst hr he hl
  | _ => exact hl

/-- A pass that has a lease had it before, or is given it now. -/
theorem leased_step (hs : s.Sound) (h : Step s ev s') {g : Frame} (hg : g ∈ s'.stack t)
    (hb : g.request.batches k) (hi : g.stage.lease = some i) :
    (∃ f ∈ s.stack t, f.number = g.number ∧ f.request = g.request ∧ f.stage.lease = some i) ∨
      ∃ l : Lease, ev = .ask t g.number g.request ⟨.acquire k, l⟩ ∧ Live k s'.host.cursors i := by
  by_cases hask : ∀ t n r x, ev ≠ .ask t n r x
  · exact Or.inl ⟨g, (leases_carry h hask).2 t g hg i hi, rfl, rfl, hi⟩
  cases h with
  | @ask _ n r past e next _ a _ hst hr =>
    rcases mem_setStack hg with ⟨rfl, rfl⟩ | hgu
    · rw [stage_snoc] at hi
      rcases leased_ask hs hst hr hb hi with hi | hnew
      · exact Or.inl ⟨⟨n, r, past, .perform e next⟩, by rw [hst]; exact List.mem_cons_self, rfl,
          rfl, hi⟩
      · exact Or.inr hnew
    · exact Or.inl ⟨g, mem_of_other hst hgu, rfl, rfl, hi⟩
  | _ => exact absurd (by simp) hask

theorem stray_step (hs : s.Sound) (h : Step s ev s') (he : ev.givesUp k = false)
    (hn : Stray k s') : Stray k s := by
  obtain ⟨u, g, hg, hb, i, hi, hn⟩ := hn
  rcases leased_step hs h hg hb hi with ⟨f, hf, -, hr, hfi⟩ | ⟨l, -, hl⟩
  · exact ⟨u, f, hf, hr ▸ hb, i, hfi, fun hl => hn (live_step hs h he hl)⟩
  · exact absurd hl hn

/-- The passes of a subscriber without a slot of its own, or with one that is to be reset, start
anew. -/
theorem cold_of_not_live (h : ∀ i, ¬ Live k s.host.cursors i) (hp : At k s p) : p = {} := by
  cases hp with
  | cold => rfl
  | free hl => exact absurd hl (h _)
  | held _ hu => exact absurd hu.live (h _)

/-- The slot of a subscriber that is given up while somebody holds it is to be reset, or is the
subscriber's no more. -/
theorem not_live_of_givesUp (hs : s.Sound)
    (hst : s.stack t = ⟨n, r, past, .perform e next⟩ :: below) (hr : Replies t s.host e a h')
    (he : (Event.ask t n r ⟨e, a⟩).givesUp k)
    (hheld : ∀ i, s.host.cursors.mapped.find? k = some i → (s.host.cursors.slot i).holder ≠ none) :
    ∀ i, ¬ Live k h'.cursors i := by
  obtain ⟨-, -, -, hg⟩ := ask_granted hs hst hr
  intro i hl
  cases e with
  | reset j =>
    obtain rfl : j = k := by simpa [Event.givesUp] using he
    obtain ⟨-, b, hcall⟩ := hg
    obtain ⟨hmap, -, hslot⟩ := Cache.reset_spec (hs.cursors.inside j) hcall
    have hm := hmap ▸ hl.mapped
    have hkept := hl.kept
    rw [hslot, if_pos hm, Slot.forgotten, if_neg (hheld i hm)] at hkept
    cases hkept
  | evict j =>
    obtain rfl : j = k := by simpa [Event.givesUp] using he
    obtain ⟨-, b, hcall⟩ := hg
    obtain ⟨hmap, -, -⟩ := Cache.evict_spec (hs.cursors.inside j) hcall
    have hm := hl.mapped
    rw [hmap, if_pos rfl] at hm
    cases hm
  | _ => cases he

/-- Only a call that gives up the cursor asks for that. -/
theorem forgets_of_givesUp (hs : s.Sound) (h : Step s ev s') (he : ev.givesUp k) :
    ∃ t, ∃ f ∈ s.stack t, f.request.forgets k := by
  cases h with
  | @ask t n r past e _ _ a _ hst =>
    have hmem := hst ▸ List.mem_cons_self
    have hperm := (hs.frames _ _ hmem).follows.1
    refine ⟨t, _, hmem, ?_⟩
    change r.forgets k
    cases e with
    | reset j =>
      rw [show r = .resetBatching j from hperm.2]
      simpa [Event.givesUp, Request.forgets] using he
    | evict j =>
      rw [show r = .unsubscribe j from hperm.2]
      simpa [Event.givesUp, Request.forgets] using he
    | _ => cases he
  | _ => cases he

end DurableTopic.Store

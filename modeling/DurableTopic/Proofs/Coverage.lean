import DurableTopic.Proofs.Places
import DurableTopic.Proofs.Play
import DurableTopic.Proofs.Records
/-! No message is lost: between the position that is acknowledged and the cursor, every message was
accepted. -/
namespace DurableTopic.Store

open Cursor (Thread)
open Repository (Ledger)
open Subscription (Onward)

/-- What lies between the acknowledged position of a subscriber and another position was accepted,
and nothing can come there any more. -/
def Covers (k : SubscriberKey) (tr : List Event) (l : Ledger) (w : Watermark) : Prop :=
  w.sequence ≤ 0 ∨ ∃ x, l.record k = some x ∧ (w.sequence ≤ x.acked.sequence ∨
    (∃ r ∈ l.rows, w.sequence ≤ r.sequence) ∧ ∀ r ∈ l.rows, x.acked.sequence < r.sequence →
      r.sequence ≤ w.sequence → ∃ o ∈ accepted k tr, o.IsOf r)

/-- The positions of a place are covered. Nothing is read for a subscriber without a record. -/
structure Covered (k : SubscriberKey) (tr : List Event) (l : Ledger) (p : Place) : Prop where
  cursor : ∀ w, p.cursor = some w → Covers k tr l w
  mark : ∀ w, p.mark = some w → Covers k tr l w
  unread : l.record k = none → p.rows = []

/-- The subscriber may be deleted, and the eviction of its cursor is still ahead. -/
def Due (k : SubscriberKey) (s : System) : Prop :=
  ∃ t, ∃ f ∈ s.stack t, f.request = .unsubscribe k ∧ f.stage.forgot

/-- The place of a subscriber's passes is covered, or is about to be given up. -/
def Lossless (k : SubscriberKey) (tr : List Event) (s : System) : Prop :=
  Due k s ∧ s.host.ledger.record k = none ∨ ∀ p, At k s p → Covered k tr s.host.ledger p

variable {k : SubscriberKey} {tr : List Event} {s s' : System} {ev : Event} {l l' : Ledger}
  {p p' : Place} {w : Watermark} {t : Thread}

theorem mem_accepted_snoc {o : Offer} (h : o ∈ accepted k tr) : o ∈ accepted k (tr ++ [ev]) := by
  rw [accepted_snoc]
  exact List.mem_append_left _ h

theorem covers_snoc (h : Covers k tr l w) : Covers k (tr ++ [ev]) l w := by
  rcases h with h | ⟨x, hx, h | ⟨hr, hall⟩⟩
  · exact Or.inl h
  · exact Or.inr ⟨x, hx, Or.inl h⟩
  · refine Or.inr ⟨x, hx, Or.inr ⟨hr, fun r hm ha hw => ?_⟩⟩
    obtain ⟨o, ho, hor⟩ := hall r hm ha hw
    exact ⟨o, mem_accepted_snoc ho, hor⟩

/-- New messages come behind, and acknowledgements only move forward. -/
theorem covers_grow (h : Covers k tr l w) (hl : l'.Sound) (hr : l.rows <+: l'.rows)
    (ho : Onward (l.record k) (l'.record k)) : Covers k tr l' w := by
  rcases h with h | ⟨x, hx, h⟩
  · exact Or.inl h
  obtain ⟨x', hx', hack⟩ := ho x hx
  refine Or.inr ⟨x', hx', ?_⟩
  rcases h with h | ⟨⟨last, hlast, hle⟩, hall⟩
  · exact Or.inl (Int.le_trans h hack)
  · refine Or.inr ⟨⟨last, hr.mem hlast, hle⟩, fun r hm ha hw => ?_⟩
    refine hall r ?_ (by omega) hw
    obtain ⟨new, hnew⟩ := hr
    rw [← hnew] at hm
    rcases List.mem_append.1 hm with hm | hm
    · exact hm
    · have hasc := hl.ascending
      rw [← hnew, List.pairwise_append] at hasc
      have := hasc.2.2 last hlast r hm
      omega

theorem covered_cold : Covered k tr l {} := ⟨by simp, by simp, fun _ => rfl⟩

theorem covered_snoc (h : Covered k tr l p) : Covered k (tr ++ [ev]) l p :=
  ⟨fun w hw => covers_snoc (h.cursor w hw), fun w hw => covers_snoc (h.mark w hw), h.unread⟩

theorem covered_grow (h : Covered k tr l p) (hl : l'.Sound) (hr : l.rows <+: l'.rows)
    (ho : Onward (l.record k) (l'.record k)) : Covered k tr l' p := by
  refine ⟨fun w hw => covers_grow (h.cursor w hw) hl hr ho,
    fun w hw => covers_grow (h.mark w hw) hl hr ho, fun hn => h.unread ?_⟩
  cases hx : l.record k with
  | none => rfl
  | some x =>
    obtain ⟨x', hx', -⟩ := ho x hx
    simp [hn] at hx'

theorem covers_load (hw : w = (l.record k).elim .start (·.acked)) : Covers k tr l w := by
  cases hx : l.record k with
  | none => exact Or.inl (by rw [hw, hx]; decide)
  | some x => exact Or.inr ⟨x, hx, Or.inl (by simp [hw, hx])⟩

/-- When the first message above a covered position is accepted, its own position is covered. -/
theorem covers_accept {r : Row} {rest : List Row} {o : Offer} (h : Covers k tr l w) (hl : l.Sound)
    (hx : l.record k ≠ none) (habove : l.above w = r :: rest) (ho : o.IsOf r)
    (hacc : ev.accepts k = some o) : Covers k (tr ++ [ev]) l r.mark := by
  obtain ⟨x, hx⟩ := Option.ne_none_iff_exists'.1 hx
  have hmem : r ∈ l.rows := (Ledger.mem_above.1 (habove ▸ List.mem_cons_self)).1
  refine Or.inr ⟨x, hx, Or.inr ⟨⟨r, hmem, Int.le_refl _⟩, fun y hy ha hle => ?_⟩⟩
  by_cases hyw : w.sequence < y.sequence
  · -- Nothing lies between the position and the first message above it.
    obtain rfl := Ledger.eq_of_mem_above_of_le hl habove hy hyw hle
    exact ⟨o, by simp [accepted_snoc, hacc], ho⟩
  · have hpos := hl.positive y hy
    rcases h with h | ⟨x', hx', h | ⟨-, hall⟩⟩
    · omega
    · obtain rfl : x' = x := by simpa [hx] using hx'.symm
      omega
    · obtain rfl : x' = x := by simpa [hx] using hx'.symm
      obtain ⟨o', ho', hor⟩ := hall y hy ha (by omega)
      exact ⟨o', mem_accepted_snoc ho', hor⟩

/-- However the place moves, it stays covered. -/
theorem covered_step {stray : Prop} (h : Covered k tr l p) (hl : l.Sound)
    (hm : Place.Step k l stray ev p p') : Covered k (tr ++ [ev]) l p' := by
  have hs : Covered k (tr ++ [ev]) l p := covered_snoc h
  cases hm with
  | stay => exact hs
  | load hb hw =>
    refine ⟨by simp, fun v hv => ?_, fun _ => rfl⟩
    cases hv
    exact covers_load hw
  | undo => exact ⟨by simp, by simp, fun _ => rfl⟩
  | scan hrows =>
    refine ⟨hs.cursor, hs.mark, fun hn => ?_⟩
    simpa [hn] using hrows
  | keep => exact ⟨hs.mark, hs.mark, hs.unread⟩
  | leave => exact ⟨hs.cursor, hs.mark, fun _ => rfl⟩
  | accept hb habove ho =>
    have hx : l.record k ≠ none := fun hn => by simpa using h.unread hn
    refine ⟨hs.cursor, fun v hv => ?_, fun hn => absurd hn hx⟩
    cases hv
    exact covers_accept (h.mark _ rfl) hl hx habove ho (by simp [Event.accepts, hb])
  | unwind => exact ⟨hs.cursor, hs.cursor, fun _ => rfl⟩

/-- An eviction that is due stays due until it is done. -/
theorem forgot_next {st : Stage} {e : Effect} {a : e.Reply} (h : st.forgot)
    (he : ∀ j, e ≠ .evict j) : (st.next ⟨e, a⟩).forgot := by
  cases e with
  | begin | commit => rcases a with f | _ <;> exact h
  | call c =>
    cases c with
    | load => rcases a with f | w <;> exact h
    | delete => rfl
    | _ => exact h
  | evict j => exact absurd rfl (he j)
  | hasCapacity => rcases a with f | _ <;> simpa [Stage.next] using h
  | offer => rcases a with f | _ | _ <;> simpa [Stage.next] using h
  | _ => exact h

/-- While an eviction is due its call is at work: it waits for no listener. -/
theorem top_of_forgot (hs : s.Sound) {f : Frame} (hf : f ∈ s.stack t) (h : f.stage.forgot) :
    ∃ below, s.stack t = f :: below := by
  cases hst : s.stack t with
  | nil => simp [hst] at hf
  | cons g below =>
    rw [hst] at hf
    rcases List.mem_cons.1 hf with rfl | hb
    · exact ⟨below, rfl⟩
    · have hlisten := listens_of_atListener
        (hs.frames t f (by rw [hst]; exact List.mem_cons_of_mem _ hb)) (hs.waits t g below hst f hb)
      simp [hlisten.forgot] at h

/-- After the eviction of a deletion the passes start anew. -/
theorem cold_of_evict {n : Nat} {r : Request} {j : SubscriberKey} {a : (Effect.evict j).Reply}
    (hs : s.Sound) (h : Step s (.ask t n r ⟨.evict j, a⟩) s') (hreq : r = .unsubscribe k) :
    ∀ p, At k s' p → p = {} := by
  cases h with
  | @ask _ _ _ past _ next _ _ _ hst hr =>
    have hf := hs.frames t _ (by rw [hst]; exact List.mem_cons_self)
    have hj : r = .unsubscribe j := hf.follows.1.2
    obtain rfl : k = j := Request.unsubscribe.inj (hreq.symm.trans hj)
    obtain ⟨-, b, hb⟩ := (ask_granted hs hst hr).2.2.2
    have hmap := (Cursor.Cache.evict_spec (hs.cursors.inside k) hb).1 k
    exact fun p => cold_of_not_live fun i hl => by simpa [hmap] using hl.mapped

/-- After a deletion nothing happens before the cursor is evicted. -/
theorem due_step (hs : s.Sound) (h : SerialStep s ev s') (hd : Due k s)
    (hn : s.host.ledger.record k = none) :
    (Due k s' ∧ s'.host.ledger.record k = none) ∨ ∀ p, At k s' p → p = {} := by
  obtain ⟨t, f, hf, hreq, hforgot⟩ := hd
  obtain ⟨below, hst⟩ := top_of_forgot hs hf hforgot
  have hfs := hs.frames t f hf
  have hsame : ∀ u, ev.thread? = some u → t = u := by
    intro u hu
    refine Classical.byContradiction fun hne => ?_
    simp [h.alone u hu t hne] at hf
  have hstep := h.step
  cases hstep with
  | start r hl =>
    obtain rfl := hsame _ rfl
    have := (listens_of_atListener hfs (hl f (by simp [hst]))).forgot
    simp [hforgot] at this
  | @finish _ n r past x _ hst' =>
    obtain rfl := hsame _ rfl
    obtain rfl := (List.cons.inj (hst.symm.trans hst')).1
    have hrest : (Frame.mk n r past (.done x)).stage.forgot = false := hfs.follows.2.2
    simp [hforgot] at hrest
  | disturb => exact Or.inl ⟨⟨t, f, hf, hreq, hforgot⟩, hn⟩
  | @ask _ n r past e next _ a h' hst' hr =>
    obtain rfl := hsame _ rfl
    obtain rfl := (List.cons.inj (hst.symm.trans hst')).1
    have hreq : r = .unsubscribe k := hreq
    by_cases he : ∃ j, e = .evict j
    · obtain ⟨j, rfl⟩ := he
      exact Or.inr (cold_of_evict hs h.step hreq)
    · left
      refine ⟨⟨t, ⟨n, r, past ++ [⟨e, a⟩], next a⟩, by simp [System.setStack], hreq, ?_⟩, ?_⟩
      · rw [stage_snoc]
        exact forgot_next hforgot fun j hj => he ⟨j, hj⟩
      · rcases ledger_step hs h.step with hleg | ⟨u, g, -, hev, -, hevolves⟩
        · rw [hleg]
          exact hn
        · have hg : g.request = .unsubscribe k := by
            injection hev with _ _ hrg
            exact hrg ▸ hreq
          rw [hg] at hevolves
          rcases Ledger.record_evolves (k := k) hevolves with hrec | hrec
          · exact hrec.trans hn
          · exact hrec

theorem lossless_step (hi : Lossless k tr s) (hs : s.Sound) (h : SerialStep s ev s')
    (hk : k.Plain s.host.spell)
    (hkeys : ∀ t, ∀ f ∈ s.stack t, ∀ j, f.request.key? = some j → j.Plain s.host.spell) :
    Lossless k (tr ++ [ev]) s' := by
  have hl := Repository.committed_sound hs.backend.repository
  have hl' := Repository.committed_sound (sound_step hs h.step).backend.repository
  rcases hi with ⟨hd, hn⟩ | hi
  · rcases due_step hs h hd hn with hdue | hcold
    · exact Or.inl hdue
    · exact Or.inr fun p hp => hcold p hp ▸ covered_cold
  -- What is covered before the step is covered after it, as long as the record stays.
  have hplace : ∀ p', At k s' p' → Covered k (tr ++ [ev]) s.host.ledger p' := by
    intro p' hp'
    rcases place_step hs h.step hp' with ⟨-, rfl⟩ | ⟨p, hp, hm⟩
    · exact covered_cold
    · exact covered_step (hi p hp) hl hm
  have honward : Onward (s.host.ledger.record k) (s'.host.ledger.record k) →
      Lossless k (tr ++ [ev]) s' := fun ho =>
    Or.inr fun p' hp' => covered_grow (hplace p' hp') hl' (rows_step hs h.step) ho
  rcases ledger_step hs h.step with hleg | ⟨t, f, hf, hev, hforgot, hevolves⟩
  · exact honward (hleg ▸ Subscription.onward_refl _)
  by_cases hdel : ∃ j, f.request = .unsubscribe j ∧ k.spelled s.host.spell = j.spelled s.host.spell
  · obtain ⟨j, hreq, hkj⟩ := hdel
    have hj : j.Plain s.host.spell := by
      rcases request_step h.step hf with ⟨g, hg, -, hgr⟩ | hnew
      · exact hkeys t g hg j (by rw [hgr, hreq]; rfl)
      · simp [hev, Event.call?] at hnew
    obtain rfl : k = j := hk.symm.trans (hkj.trans hj)
    rw [hreq] at hevolves
    rcases Ledger.record_evolves (k := k) hevolves with hrec | hrec
    · exact honward (hrec ▸ Subscription.onward_refl _)
    · exact Or.inl ⟨⟨t, f, hf, hreq, hforgot k hreq⟩, hrec⟩
  · exact honward (Ledger.onward_evolves hevolves fun j hreq hkj => hdel ⟨j, hreq, hkj⟩)

theorem lossless_run (hi : Lossless k [] s) (hs : s.Sound) (h : Run SerialStep s tr s')
    (hk : k.Plain s.host.spell)
    (hframes : ∀ t, ∀ f ∈ s.stack t, ∀ j, f.request.key? = some j → j.Plain s.host.spell)
    (hkeys : ∀ r ∈ calls tr, ∀ j, r.key? = some j → j.Plain s.host.spell) :
    Lossless k tr s' := by
  induction h with
  | nil => exact hi
  | snoc h he ih =>
    have hkeys' := fun r hm => hkeys r (mem_calls_left hm)
    have hrun := run_mono (fun _ _ _ h => h.step) h
    have hspell := spell_run hs hrun
    refine lossless_step (ih hkeys') (sound_run hs hrun) he (hspell ▸ hk) ?_
    rw [hspell]
    exact requests_run (P := fun r => ∀ j, r.key? = some j → j.Plain s.host.spell) hrun hframes
      hkeys'

/-- A store that was just opened knows no cursor. -/
theorem lossless_opened (h : s.Opened) : Lossless k [] s := by
  refine Or.inr fun p hp => ?_
  cases hp with
  | cold => exact covered_cold
  | free hl => exact absurd hl.mapped (by simp [h.cursors])
  | held _ hu => exact absurd hu.live.mapped (by simp [h.cursors])

/-- Without a record every position is before all messages, whatever was accepted. -/
theorem lossless_restart (hi : Lossless k tr s) (hn : s.host.ledger.record k = none) :
    Lossless k [] s := by
  rcases hi with hd | hi
  · exact Or.inl hd
  refine Or.inr fun p hp => ?_
  have hnew : ∀ w, Covers k tr s.host.ledger w → Covers k [] s.host.ledger w := by
    rintro w (hw | ⟨x, hx, -⟩)
    · exact Or.inl hw
    · simp [hn] at hx
  have hc := hi p hp
  exact ⟨fun w hw => hnew w (hc.cursor w hw), fun w hw => hnew w (hc.mark w hw), hc.unread⟩

/-- What is shown of a cursor is where the passes are. -/
theorem at_of_shown {c : Watermark} (hs : s.Sound) (h : s.host.cursors.shown k = some c) :
    ∃ p, At k s p ∧ p.cursor = some c := by
  obtain ⟨i, hm, hshow⟩ := Option.bind_eq_some_iff.1 h
  simp only [Cursor.Slot.shownToHolder] at hshow
  split at hshow
  · cases hshow
  rename_i hpending
  simp only [Bool.or_eq_true, not_or, Bool.not_eq_true] at hpending
  have hl : Live k s.host.cursors i := ⟨hm, hpending.1⟩
  obtain ⟨p, hp⟩ := at_total hs (k := k)
  refine ⟨p, hp, ?_⟩
  cases hp with
  | cold hn => exact absurd hl (hn i)
  | free hl' => rwa [live_unique hl' hl]
  | held hf hu =>
    have := ((hs.frames _ _ hf).leased _ hu.lease).2.1
    rw [live_unique hu.live hl, hshow] at this
    exact this.symm

/-- When calls are made one after the other, every message between the acknowledged position of a
subscriber and its cursor was accepted since the subscriber has a record, or since the store was
opened. -/
theorem nothing_lost {s₀ s₁ s₂ : System} {tr₁ tr₂ : List Event} {c' : Cursor.Cache}
    {c : Watermark} {x : Subscription} {r : Row} (ho : s₀.Opened) (h₁ : Run SerialStep s₀ tr₁ s₁)
    (hnew : tr₁ = [] ∨ s₁.host.ledger.record k = none) (h₂ : Run SerialStep s₁ tr₂ s₂)
    (hk : k.Plain s₀.host.spell)
    (hkeys : ∀ q ∈ calls (tr₁ ++ tr₂), ∀ j, q.key? = some j → j.Plain s₀.host.spell)
    (hshow : s₂.host.cursors.call t (.peek k) = some (.shown (some c), c'))
    (hx : s₂.host.ledger.record k = some x) (hr : r ∈ s₂.host.ledger.rows)
    (hacked : x.acked.sequence < r.sequence) (hle : r.sequence ≤ c.sequence) :
    ∃ o ∈ accepted k tr₂, o.IsOf r := by
  have hs₀ := sound_opened ho
  have hrun₁ := run_mono (fun _ _ _ h => h.step) h₁
  have hs₁ := sound_run hs₀ hrun₁
  have hs₂ := sound_run hs₁ (run_mono (fun _ _ _ h => h.step) h₂)
  have hspell := spell_run hs₀ hrun₁
  have hkeys₁ := fun q hm => hkeys q (mem_calls_left hm)
  have hi₁ : Lossless k [] s₁ := by
    rcases hnew with rfl | hn
    · exact run_nil h₁ ▸ lossless_opened ho
    · exact lossless_restart
        (lossless_run (lossless_opened ho) hs₀ h₁ hk (by simp [ho.stack]) hkeys₁) hn
  have hi₂ : Lossless k tr₂ s₂ := by
    refine lossless_run hi₁ hs₁ h₂ (hspell ▸ hk) ?_ fun q hm => ?_
    · rw [hspell]
      exact requests_run (P := fun q => ∀ j, q.key? = some j → j.Plain s₀.host.spell) hrun₁
        (by simp [ho.stack]) hkeys₁
    · rw [hspell]
      exact hkeys q (mem_calls_right hm)
  rcases hi₂ with ⟨-, hn⟩ | hi₂
  · simp [hx] at hn
  obtain ⟨-, hshown⟩ := Cursor.Cache.peek_spec hs₂.cursors hshow
  simp only [Cursor.Answer.shown.injEq] at hshown
  obtain ⟨p, hp, hcursor⟩ := at_of_shown hs₂ hshown.symm
  have hpos := (Repository.committed_sound hs₂.backend.repository).positive r hr
  rcases (hi₂ p hp).cursor c hcursor with hc | ⟨y, hy, hc | ⟨-, hall⟩⟩
  · omega
  · obtain rfl : y = x := by simpa [hx] using hy.symm
    omega
  · obtain rfl : y = x := by simpa [hx] using hy.symm
    exact hall r hr hacked hle

/-- A pass whose listener publishes, accepts the first message and refuses the second. -/
def partialPass : List Choice :=
  [.call "main" (.subscribe { destination := "orders", key := ⟨"a", none⟩ } true),
    .call "main" (.recoverNext ⟨"a", none⟩ 5 .reference),
    .call "main" (.publish (System.note "orders" "m3")), .hear "main" (.ok true),
    .hear "main" (.ok true), .hear "main" (.ok true), .hear "main" (.ok false)]

theorem partial_pass_loses_nothing :
    let s₁ := ((System.fresh "orders").play System.twoNotes).2
    let s₂ := (s₁.play partialPass).2
    s₂.host.cursors.shown ⟨"a", none⟩ = some ⟨1, 0⟩ ∧ ∃ r ∈ s₂.host.ledger.rows,
      r.sequence = 1 ∧ ∃ o ∈ accepted ⟨"a", none⟩ (s₁.play partialPass).1, o.IsOf r := by
  intro s₁ s₂
  obtain ⟨h₁, ha⟩ := serial_run (t := "main") (System.play_run (s := System.fresh "orders")
    System.twoNotes) (fun _ _ => rfl) (by decide +kernel)
  obtain ⟨h₂, -⟩ : Run SerialStep s₁ (s₁.play partialPass).1 s₂ ∧ s₂.Alone "main" :=
    serial_run (System.play_run partialPass) ha (by decide +kernel)
  obtain ⟨r, hr, hseq⟩ : ∃ r ∈ s₂.host.ledger.rows, r.sequence = 1 := by decide +kernel
  have hshow : s₂.host.cursors.call "main" (.peek ⟨"a", none⟩) =
      some (.shown (some ⟨1, 0⟩), s₂.host.cursors) := by decide +kernel
  have hx : s₂.host.ledger.record ⟨"a", none⟩ =
      some ⟨"orders", ⟨"a", none⟩, "", true, .start⟩ := by decide +kernel
  refine ⟨by decide +kernel, r, hr, hseq, ?_⟩
  exact nothing_lost (System.opened_fresh "orders") h₁ (Or.inr (by decide +kernel)) h₂
    (plain_of_memory rfl) (fun _ _ _ _ => plain_of_memory rfl) hshow hx hr
    (by simp [hseq, Watermark.start]) (by simp [hseq])

end DurableTopic.Store

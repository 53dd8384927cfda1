import DurableTopic.Proofs.Histories
import DurableTopic.Proofs.Play
import DurableTopic.Proofs.Redelivery
/-! Acknowledgements join. In whatever order they come and whatever happens between them, the position
of a subscriber is the furthest of where it was and of the messages that were acknowledged. -/
namespace DurableTopic

/-- The furthest of a first position and others. The first wins a tie. -/
structure Watermark.IsJoin (first : Watermark) (others : Watermark → Prop) (w : Watermark) :
    Prop where
  source : w = first ∨ others w ∧ first.sequence < w.sequence
  above : ∀ v, others v → v.sequence ≤ w.sequence

namespace Watermark

variable {u v w first : Watermark} {others more : Watermark → Prop}

theorem isJoin_le (h : first.IsJoin others w) : first.sequence ≤ w.sequence := by
  rcases h.source with rfl | ⟨-, hlt⟩
  · exact Int.le_refl _
  · exact Int.le_of_lt hlt

theorem isJoin_congr (h : first.IsJoin others w) (hm : ∀ v, more v ↔ others v) :
    first.IsJoin more w :=
  ⟨h.source.imp id (And.imp_left (hm w).2), fun v hv => h.above v ((hm v).1 hv)⟩

theorem isJoin_none : first.IsJoin (fun _ => False) first := ⟨Or.inl rfl, nofun⟩

/-- One more position moves a join forward, if at all. -/
theorem isJoin_add (h : first.IsJoin others w) :
    first.IsJoin (fun v => others v ∨ v = u) (if u.isAhead w then u else w) := by
  split
  · rename_i hu
    have hu := isAhead_iff.1 hu
    refine ⟨Or.inr ⟨Or.inr rfl, Int.lt_of_le_of_lt (isJoin_le h) hu⟩, ?_⟩
    rintro v (hv | rfl)
    · exact Int.le_trans (h.above v hv) (Int.le_of_lt hu)
    · exact Int.le_refl _
  · rename_i hu
    have hu : u.sequence ≤ w.sequence := Int.not_lt.1 (mt isAhead_iff.2 hu)
    refine ⟨h.source.imp id (And.imp_left Or.inl), ?_⟩
    rintro v (hv | rfl)
    · exact h.above v hv
    · exact hu

/-- There is one join of positions that differ in sequence. -/
theorem isJoin_unique (ho : ∀ u v, others u → others v → u.sequence = v.sequence → u = v)
    (hv : first.IsJoin others v) (hw : first.IsJoin others w) : v = w := by
  rcases hv.source with rfl | ⟨hov, hlt⟩
  · rcases hw.source with rfl | ⟨how, hlt⟩
    · rfl
    · exact absurd (hv.above w how) (Int.not_le.2 hlt)
  · rcases hw.source with rfl | ⟨how, -⟩
    · exact absurd (hw.above v hov) (Int.not_le.2 hlt)
    · exact ho v w hov how (Int.le_antisymm (hw.above v hov) (hv.above w how))

end Watermark
namespace Repository.Ledger

variable {spell : String → String} {l l' : Ledger} {i j : String} {u v w : Watermark}
  {k m : SubscriberKey}

theorem position_grow (hp : l.rows <+: l'.rows) (h : l.position spell i = some v) :
    l'.position spell i = some v := by
  obtain ⟨new, hn⟩ := hp
  obtain ⟨r, hf, rfl⟩ := Option.map_eq_some_iff.1 h
  rw [position, ← hn, List.find?_append, hf]
  rfl

theorem position_kept (hp : l.rows <+: l'.rows) (h : (l.position spell i).isSome) :
    l'.position spell i = l.position spell i := by
  obtain ⟨v, hv⟩ := Option.isSome_iff_exists.1 h
  rw [hv, position_grow hp hv]

/-- Different messages differ in sequence. -/
theorem eq_of_sequence {r q : Row} (h : l.Sound) (hr : r ∈ l.rows) (hq : q ∈ l.rows)
    (he : r.sequence = q.sequence) : r = q := by
  obtain ⟨before, after, hrows⟩ := List.append_of_mem hr
  have hs := h.ascending
  rw [hrows, List.pairwise_append, List.pairwise_cons] at hs
  obtain ⟨_, ⟨hafter, _⟩, hbefore⟩ := hs
  rw [hrows, List.mem_append, List.mem_cons] at hq
  rcases hq with hq | rfl | hq
  · have := hbefore q hq r (by simp)
    omega
  · rfl
  · have := hafter q hq
    omega

theorem position_inj (h : l.Sound) (hi : l.position spell i = some u)
    (hj : l.position spell j = some v) (huv : u.sequence = v.sequence) : u = v := by
  obtain ⟨r, hr, rfl⟩ := Option.map_eq_some_iff.1 hi
  obtain ⟨q, hq, rfl⟩ := Option.map_eq_some_iff.1 hj
  exact congrArg Row.mark
    (eq_of_sequence h (List.mem_of_find?_eq_some hr) (List.mem_of_find?_eq_some hq) huv)

/-- A call that neither moves a position nor deletes keeps the position of a record. -/
theorem acked_answers {c : Call} {a : c.Reply} {x : Subscription} (h : l.Answers spell c a l')
    (hp : ∀ d j w, c ≠ .persist d j w) (hd : ∀ d j, c ≠ .delete d j)
    (hx : l.record k = some x) : ∃ x', l'.record k = some x' ∧ x'.acked = x.acked := by
  cases c with
  | append r =>
    rcases h with ⟨y, _, _, _, _, rfl⟩ | ⟨_, rfl⟩ <;> exact ⟨x, hx, rfl⟩
  | persist d j w => exact absurd rfl (hp d j w)
  | put s retroactive =>
    rcases wrote_or_same h with rfl | rfl
    · simp only [put, update, hx]
      split
      · exact ⟨_, rfl, rfl⟩
      · exact ⟨x, rfl, rfl⟩
    · exact ⟨x, hx, rfl⟩
  | delete d j => exact absurd rfl (hd d j)
  | _ => exact ⟨x, answers_read h rfl ▸ hx, rfl⟩

theorem acked_evolves {d : String} {r : Store.Request} {x : Subscription}
    (h : Evolves spell (r.mayCall d) l l') (ha : ∀ j i kind, r ≠ .acknowledge j i kind)
    (hu : ∀ j, r ≠ .unsubscribe j) (hx : l.record k = some x) :
    ∃ x', l'.record k = some x' ∧ x'.acked = x.acked := by
  induction h with
  | refl => exact ⟨x, hx, rfl⟩
  | @call _ _ c _ _ hc hans ih =>
    obtain ⟨y, hy, hacked⟩ := ih
    obtain ⟨z, hz, hz'⟩ := acked_answers (k := k) hans
      (by rintro d' j w rfl; cases r <;> simp_all [Store.Request.mayCall])
      (by rintro d' j rfl; cases r <;> simp_all [Store.Request.mayCall]) hy
    exact ⟨z, hz, hz'.trans hacked⟩

theorem persist_record {x : Subscription} (hx : l.record k = some x) :
    ∃ x', (l.persist spell m w).record k = some x' ∧
      x'.acked = if m.spelled spell = k.spelled spell ∧ w.isAhead x.acked then w else x.acked := by
  simp only [persist, update, hx]
  by_cases hm : k.spelled spell = m.spelled spell
  · rw [if_pos hm]
    refine ⟨_, rfl, ?_⟩
    by_cases hw : w.isAhead x.acked <;> simp [advanced, hm, hw]
  · rw [if_neg hm]
    exact ⟨x, rfl, by simp [Ne.symm hm]⟩

end Repository.Ledger
namespace Store

open Cursor (Thread)
open Repository (Ledger)

variable {k : SubscriberKey} {s s' : System} {tr : List Event} {ev : Event} {x : Subscription}

/-- The message that a call acknowledges for a subscriber. -/
def Request.acks (spell : String → String) (k : SubscriberKey) : Request → Option String
  | acknowledge j i .standard => if j.spelled spell = k.spelled spell then some i else none
  | _ => none

theorem Request.acks_eq {spell : String → String} {r : Request} {i : String} :
    r.acks spell k = some i ↔
      ∃ j, r = .acknowledge j i .standard ∧ j.spelled spell = k.spelled spell := by
  cases r with
  | acknowledge j m kind =>
    cases kind with
    | unmatched => simp [acks]
    | standard =>
      simp only [acks, acknowledge.injEq, and_true]
      split <;> grind
  | _ => simp [acks]

/-- The message whose acknowledgement for a subscriber is committed. -/
def Event.acks (spell : String → String) (k : SubscriberKey) : Event → Option String
  | .ask _ _ r ⟨.commit, .ok _⟩ => r.acks spell k
  | _ => none

/-- The messages that were acknowledged for a subscriber, in order. -/
def acknowledged (spell : String → String) (k : SubscriberKey) (tr : List Event) : List String :=
  tr.filterMap (·.acks spell k)

/-- What a committed acknowledgement leaves of a record, and what any other event leaves. -/
theorem acked_step (hs : s.Sound) (hrec : s.Recorded) (h : RegisteredStep k s ev s')
    (hx : s.host.ledger.record k = some x) :
    ∃ x', s'.host.ledger.record k = some x' ∧
      match ev.acks s.host.spell k with
      | some i => ∃ w, s.host.ledger.position s.host.spell i = some w ∧
        x'.acked = if w.isAhead x.acked then w else x.acked
      | none => x'.acked = x.acked := by
  have hreg := h.registered
  cases h.step with
  | start r => exact ⟨x, hx, rfl⟩
  | finish => exact ⟨x, hx, rfl⟩
  | disturb => exact ⟨x, hx, rfl⟩
  | @ask t n r past e next below a h' hst hr =>
    obtain ⟨hd, -, -, hg⟩ := ask_granted hs hst hr
    cases e with
    | begin => exact ⟨x, hg.2.1 ▸ hx, rfl⟩
    | call => exact ⟨x, hg.2.1 ▸ hx, rfl⟩
    | close => exact ⟨x, hg.2 ▸ hx, rfl⟩
    | commit =>
      obtain ⟨-, l, hl, ⟨rfl, hleg, -⟩ | ⟨⟨f, rfl⟩, hleg, -⟩⟩ := hg
      · obtain ⟨l', hl', hrep, hev, hallow⟩ := replays_commit hs hrec hst
        obtain rfl : l' = l := by simpa [hl'] using hl
        change h'.ledger.record k ≠ none at hreg
        change ∃ x', h'.ledger.record k = some x' ∧ _
        rw [hleg] at hreg ⊢
        cases r with
        | acknowledge j i kind =>
          cases kind with
          | unmatched => exact hallow.elim
          | standard =>
            obtain ⟨span, w, st, hok, rfl⟩ := hallow
            obtain ⟨hpos, rfl⟩ := replays_acked hok hrep
            obtain ⟨x', hx', hacked⟩ := Ledger.persist_record hx
            refine ⟨x', hx', ?_⟩
            by_cases hjk : j.spelled s.host.spell = k.spelled s.host.spell
            · simp only [Event.acks, Request.acks, hjk, if_true]
              exact ⟨w, hpos, by simpa [hjk] using hacked⟩
            · simpa [Event.acks, Request.acks, hjk] using hacked
        | unsubscribe j =>
          rcases Ledger.record_evolves (k := k) hev with hsame | hnone
          · exact ⟨x, hsame ▸ hx, rfl⟩
          · exact absurd hnone hreg
        | _ => exact Ledger.acked_evolves hev (by simp) (by simp) hx
      · exact ⟨x, hleg ▸ hx, rfl⟩
    | _ => exact ⟨x, (ledger_of_backend hg.1 hd).1 ▸ hx, rfl⟩

/-- The position of a subscriber is the join of where it was and of what was acknowledged. -/
theorem join_run (hs : s.Sound) (hrec : s.Recorded) (hx : s.host.ledger.record k = some x)
    (h : Run (RegisteredStep k) s tr s') :
    ∃ y, s'.host.ledger.record k = some y ∧
      (∀ i ∈ acknowledged s.host.spell k tr,
        (s'.host.ledger.position s.host.spell i).isSome) ∧
      x.acked.IsJoin (fun v => ∃ i ∈ acknowledged s.host.spell k tr,
        s'.host.ledger.position s.host.spell i = some v) y.acked := by
  induction h with
  | nil => exact ⟨x, hx, by simp [acknowledged], by simpa [acknowledged] using Watermark.isJoin_none⟩
  | @snoc s₁ s₂ tr ev h he ih =>
    obtain ⟨y, hy, hsome, hjoin⟩ := ih
    have hplain := run_mono (fun _ _ _ h => h.step) h
    have hs₁ := sound_run hs hplain
    have hgrow := rows_step hs₁ he.step
    obtain ⟨z, hz, hacked⟩ := acked_step hs₁ (recorded_run hs hrec hplain) he hy
    rw [spell_run hs hplain] at hacked
    have hkept := fun i hi => Ledger.position_kept hgrow (hsome i hi)
    cases hev : ev.acks s.host.spell k with
    | none =>
      have htr : acknowledged s.host.spell k (tr ++ [ev]) = acknowledged s.host.spell k tr := by
        simp [acknowledged, hev]
      rw [hev] at hacked
      refine ⟨z, hz, ?_, ?_⟩
      · rw [htr]
        exact fun i hi => hkept i hi ▸ hsome i hi
      · rw [htr, show z.acked = y.acked from hacked]
        refine Watermark.isJoin_congr hjoin fun v => ?_
        exact exists_congr fun i => and_congr_right fun hi => by rw [hkept i hi]
    | some i =>
      have htr : acknowledged s.host.spell k (tr ++ [ev]) =
          acknowledged s.host.spell k tr ++ [i] := by simp [acknowledged, hev]
      rw [hev] at hacked
      obtain ⟨w, hw, hzw⟩ := hacked
      have hw₂ := Ledger.position_grow hgrow hw
      rw [htr]
      refine ⟨z, hz, ?_, ?_⟩
      · intro m hm
        rcases List.mem_append.1 hm with hm | hm
        · exact hkept m hm ▸ hsome m hm
        · rw [List.mem_singleton.1 hm, hw₂]
          rfl
      · rw [hzw]
        refine Watermark.isJoin_congr (Watermark.isJoin_add (u := w) hjoin) fun v => ?_
        constructor
        · rintro ⟨m, hm, hv⟩
          rcases List.mem_append.1 hm with hm | hm
          · exact Or.inl ⟨m, hm, hkept m hm ▸ hv⟩
          · rw [List.mem_singleton.1 hm, hw₂] at hv
            exact Or.inr (Option.some.inj hv).symm
        · rintro (⟨m, hm, hv⟩ | rfl)
          · exact ⟨m, List.mem_append_left _ hm, (hkept m hm).trans hv⟩
          · exact ⟨i, by simp, hw₂⟩

/-- Who acknowledges names a client, and a message that is stored. -/
def Request.acksStored (spell : String → String) (l : Ledger) : Request → Bool
  | acknowledge j i .standard => !j.client.isEmpty && (l.position spell i).isSome
  | _ => true

theorem Request.acksStored_grow {spell : String → String} {l l' : Ledger} {r : Request}
    (hp : l.rows <+: l'.rows) (h : r.acksStored spell l = true) : r.acksStored spell l' = true := by
  unfold acksStored at h ⊢
  split
  · simp only [Bool.and_eq_true] at h ⊢
    exact ⟨h.1, Ledger.position_kept hp h.2 ▸ h.2⟩
  · rfl

/-- One thing happens, and whoever acknowledges for the subscriber names a message that is stored. -/
structure AckStep (k : SubscriberKey) (s : System) (e : Event) (s' : System) : Prop extends
    RegisteredStep k s e s' where
  stored : ∀ r, e.call? = some r → (r.acks s.host.spell k).isSome →
    r.acksStored s.host.spell s.host.ledger = true

/-- Messages stay stored, so it is enough to look for them at the beginning. -/
theorem ack_run (hs : s.Sound) (h : Run (RegisteredStep k) s tr s')
    (hc : ∀ r ∈ calls tr, r.acksStored s.host.spell s.host.ledger = true) :
    Run (AckStep k) s tr s' := by
  induction h with
  | nil => exact .nil _
  | snoc h he ih =>
    have hplain := run_mono (fun _ _ _ h => h.step) h
    refine (ih fun r hm => hc r (mem_calls_left hm)).snoc ⟨he, fun r hr _ => ?_⟩
    rw [spell_run hs hplain]
    refine Request.acksStored_grow (rows_run hs hplain) (hc r ?_)
    exact List.mem_filterMap.2 ⟨_, List.mem_append_right _ List.mem_cons_self, hr⟩

/-- What a trace knows of the calls that were made in it. -/
structure Chronicled (tr : List Event) (s : System) : Prop where
  started : ∀ t n r, .start t n r ∈ tr → n < s.count
  finished : ∀ t n, .finish t n ∈ tr → n < s.count
  frames : ∀ t n r, .start t n r ∈ tr → ∀ u, ∀ f ∈ s.stack u, f.number = n →
    f.request = r ∧ ∀ x ∈ f.past, .ask u n r x ∈ tr

theorem chronicled_step (hs : s.Sound) (h : Step s ev s') (hc : Chronicled tr s) :
    Chronicled (tr ++ [ev]) s' := by
  have hold : ∀ {e}, e ∈ tr ++ [ev] → e = ev ∨ e ∈ tr := fun hm =>
    (List.mem_append.1 hm).symm.imp List.mem_singleton.1 id
  have hbefore : ∀ {e}, e ∈ tr ++ [ev] → e ≠ ev → e ∈ tr := fun hm => (hold hm).resolve_left
  have hkept : ∀ {t n r}, Event.start t n r ∈ tr → ∀ {u}, ∀ f ∈ s.stack u, f.number = n →
      f.request = r ∧ ∀ x ∈ f.past, .ask u n r x ∈ tr ++ [ev] := fun hm _ f hf hn =>
    (hc.frames _ _ _ hm _ f hf hn).imp id fun hp x hx => List.mem_append_left _ (hp x hx)
  cases h with
  | @start t r hl =>
    refine ⟨fun t' n r' hm => ?_, fun t' n hm => ?_, fun t' n r' hm u f hf hn => ?_⟩
    · rcases hold hm with he | hm
      · cases he
        exact Nat.lt_succ_self _
      · exact Nat.lt_succ_of_lt (hc.started t' n r' hm)
    · rcases hold hm with he | hm
      · cases he
      · exact Nat.lt_succ_of_lt (hc.finished t' n hm)
    · rcases mem_setStack hf with ⟨rfl, rfl⟩ | hother
      · rcases hold hm with he | hm
        · cases he
          exact ⟨rfl, by simp⟩
        · exact absurd (hc.started _ _ _ hm) (by simp [← hn])
      · have hfs : f ∈ s.stack u := by
          rcases hother with ⟨rfl, hf⟩ | ⟨-, hf⟩ <;> exact hf
        rcases hold hm with he | hm
        · cases he
          exact absurd (hs.numbered u f hfs) (by simp [hn])
        · exact hkept hm f hfs hn
  | @ask t n r past e next below a h' hst hr =>
    have hstart : ∀ {t' n' r'}, Event.start t' n' r' ∈ tr ++ [.ask t n r ⟨e, a⟩] →
        Event.start t' n' r' ∈ tr := fun hm => hbefore hm (by simp)
    refine ⟨fun t' n' r' hm => hc.started t' n' r' (hstart hm),
      fun t' n' hm => hc.finished t' n' (hbefore hm (by simp)),
      fun t' n' r' hm u f hf hn => ?_⟩
    rcases mem_setStack hf with ⟨rfl, rfl⟩ | hother
    · obtain ⟨hreq, hpast⟩ := hkept (hstart hm) (u := u) ⟨n, r, past, .perform e next⟩
        (by rw [hst]; exact List.mem_cons_self) hn
      refine ⟨hreq, fun x hx => ?_⟩
      rcases List.mem_append.1 hx with hx | hx
      · exact hpast x hx
      · obtain rfl := List.mem_singleton.1 hx
        cases hreq
        cases hn
        simp
    · exact hkept (hstart hm) f (mem_of_other hst hother) hn
  | @finish t n r past a below hst =>
    refine ⟨fun t' n' r' hm => hc.started t' n' r' (hbefore hm (by simp)),
      fun t' n' hm => ?_, fun t' n' r' hm u f hf hn => ?_⟩
    · rcases hold hm with he | hm
      · cases he
        exact hs.numbered t _ (by rw [hst]; exact List.mem_cons_self)
      · exact hc.finished t' n' hm
    · exact hkept (hbefore hm (by simp)) f (mem_of_finished hst hf) hn
  | disturb =>
    exact ⟨fun t' n' r' hm => hc.started t' n' r' (hbefore hm (by simp)),
      fun t' n' hm => hc.finished t' n' (hbefore hm (by simp)),
      fun t' n' r' hm u f hf hn => hkept (hbefore hm (by simp)) f hf hn⟩

theorem chronicled_run (hs : s.Sound) (h : Run Step s tr s') : Chronicled tr s' := by
  induction h with
  | nil => exact ⟨by simp, by simp, by simp⟩
  | snoc h he ih => exact chronicled_step (sound_run hs h) he ih

/-- The acknowledgements for a subscriber that a trace makes are of messages that are stored, and none
of them was told otherwise. -/
structure Findable (k : SubscriberKey) (tr : List Event) (s : System) : Prop where
  stored : ∀ t n r, .start t n r ∈ tr → (r.acks s.host.spell k).isSome →
    r.acksStored s.host.spell s.host.ledger = true
  found : ∀ t n r i, .start t n r ∈ tr → r.acks s.host.spell k = some i →
    ∀ u, ∀ f ∈ s.stack u, f.number = n →
      ⟨.call (.resolve s.host.destination i), .ok none⟩ ∉ f.past

theorem position_of_acksStored {spell : String → String} {l : Ledger} {r : Request} {i : String}
    (h : r.acks spell k = some i) (hr : r.acksStored spell l = true) :
    (l.position spell i).isSome := by
  obtain ⟨j, rfl, -⟩ := Request.acks_eq.1 h
  exact (Bool.and_eq_true_iff.1 hr).2

/-- A message that is stored is found. -/
theorem resolve_some {t : Thread} {n : Nat} {r : Request} {past : List Exchange} {d i : String}
    {next : (Effect.call (.resolve d i)).Reply → Operation (Except Failure r.Result)}
    {below : List Frame} {h' : Host} (hs : s.Sound) (hrec : s.Recorded)
    (hst : s.stack t = ⟨n, r, past, .perform (.call (.resolve d i)) next⟩ :: below)
    (hi : (s.host.ledger.position s.host.spell i).isSome) :
    ¬ Replies t s.host (.call (.resolve d i)) (.ok none) h' := by
  intro hr
  have hf := hs.frames t _ (by rw [hst]; exact List.mem_cons_self)
  obtain ⟨l, hl, hev⟩ := hf.active hf.follows.1.1
  have hnone := (tidy_ask hs hrec hst hr).2 l hl none rfl
  rw [← Ledger.position_kept (Ledger.evolves_rows hev) hi, ← hnone] at hi
  cases hi

theorem findable_step (hs : s.Sound) (hrec : s.Recorded) (h : AckStep k s ev s')
    (hf : Findable k tr s) : Findable k (tr ++ [ev]) s' := by
  have hspell := spell_step hs h.step
  have hgrow := rows_step hs h.step
  have hstored : ∀ t n r, .start t n r ∈ tr ++ [ev] → (r.acks s.host.spell k).isSome →
      r.acksStored s.host.spell s.host.ledger = true := by
    intro t n r hm hr
    rcases List.mem_append.1 hm with hm | hm
    · exact hf.stored t n r hm hr
    · exact h.stored r (by rw [← List.mem_singleton.1 hm]; rfl) hr
  constructor
  case stored =>
    rw [hspell]
    exact fun t n r hm hr => Request.acksStored_grow hgrow (hstored t n r hm hr)
  case found =>
    intro t n r i hm hr u f hfu hn
    rw [hspell] at hr
    have hi := position_of_acksStored hr (hstored t n r hm (by simp [hr]))
    have hkept : f ∈ s.stack u → ⟨.call (.resolve s.host.destination i), .ok none⟩ ∉ f.past := by
      intro hfs
      rcases List.mem_append.1 hm with hm | hm
      · exact hf.found t n r i hm hr u f hfs hn
      · -- The call was made just now, and no call in progress has its number.
        cases h.step <;> cases List.mem_singleton.1 hm
        exact absurd (hs.numbered u f hfs) (by simp [hn])
    cases h.step with
    | start =>
      rcases mem_setStack hfu with ⟨rfl, rfl⟩ | ⟨rfl, hfu⟩ | ⟨-, hfu⟩
      · simp
      · exact hkept hfu
      · exact hkept hfu
    | @ask t' n' r' past e next below a h' hst hrep =>
      have hd := (ask_granted hs hst hrep).1
      change ⟨.call (.resolve h'.destination i), .ok none⟩ ∉ f.past
      rw [hd]
      rcases mem_setStack hfu with ⟨rfl, rfl⟩ | hother
      · intro hx
        rcases List.mem_append.1 hx with hx | hx
        · have hm := (List.mem_append.1 hm).resolve_right (by simp)
          exact hf.found t n r i hm hr u ⟨n', r', past, .perform e next⟩
            (by rw [hst]; exact List.mem_cons_self) hn hx
        · cases List.mem_singleton.1 hx
          exact resolve_some hs hrec hst hi hrep
      · exact hkept (mem_of_other hst hother)
    | finish hst =>
      exact hkept (mem_of_finished hst hfu)
    | disturb => exact hkept hfu

/-- An acknowledgement of a stored message that returns was committed, unless the repository did not
do what it was asked for. -/
theorem returned_run (hs : s.Sound) (hrec : s.Recorded) (h : Run (AckStep k) s tr s') :
    Findable k tr s' ∧
    ∀ t n r i, .start t n r ∈ tr → r.acks s.host.spell k = some i → .finish t n ∈ tr →
      i ∈ acknowledged s.host.spell k tr ∨ ∃ x, .ask t n r x ∈ tr ∧ x.trouble?.isSome := by
  induction h with
  | nil => exact ⟨⟨by simp, by simp⟩, by simp⟩
  | @snoc s₁ s₂ tr ev h he ih =>
    obtain ⟨hfind, hdone⟩ := ih
    have hplain := run_mono (fun _ _ _ h => h.step) h
    have hs₁ := sound_run hs hplain
    have hrec₁ := recorded_run hs hrec hplain
    have hc := chronicled_run hs hplain
    refine ⟨findable_step hs₁ hrec₁ he hfind, fun t n r i hm hr hfin => ?_⟩
    have hleft : ∀ {e}, e ∈ tr → e ∈ tr ++ [ev] := List.mem_append_left _
    rcases List.mem_append.1 hfin with hfin | hfin
    · rcases List.mem_append.1 hm with hm | hm
      · refine (hdone t n r i hm hr hfin).imp (fun hi => ?_) ?_
        · rw [acknowledged, List.filterMap_append]
          exact List.mem_append_left _ hi
        · rintro ⟨x, hx, htrouble⟩
          exact ⟨x, hleft hx, htrouble⟩
      · have hlt := hc.finished t n hfin
        cases he.step <;> cases List.mem_singleton.1 hm
        exact absurd hlt (Nat.lt_irrefl _)
    · cases List.mem_singleton.1 hfin
      have hm := (List.mem_append.1 hm).resolve_right (by simp)
      obtain ⟨q, past, a, below, hst⟩ :
          ∃ q past a below, s₁.stack t = ⟨n, q, past, .done a⟩ :: below := by
        cases he.step with
        | finish hst => exact ⟨_, _, _, _, hst⟩
      have hmem : Frame.mk n q past (.done a) ∈ s₁.stack t := by
        rw [hst]; exact List.mem_cons_self
      obtain ⟨hreq, hpast⟩ := hc.frames t n r hm t _ hmem rfl
      have hends := (hrec₁.frames t _ hmem).obeys
      have hspell := spell_run hs hplain
      change q = r at hreq
      subst hreq
      obtain ⟨j, rfl, -⟩ := Request.acks_eq.1 hr
      rcases hends with hcommit | ⟨x, hx, htrouble⟩ | hnone | hclient
      · exact Or.inl (List.mem_filterMap.2 ⟨_, hleft (hpast _ hcommit), hr⟩)
      · exact Or.inr ⟨x, hleft (hpast x hx), htrouble⟩
      · exact absurd hnone (hfind.found t n _ i hm (hspell.symm ▸ hr) t _ hmem rfl)
      · have hstored := hfind.stored t n _ hm (by rw [hspell, hr]; rfl)
        simp [Request.acksStored, hclient] at hstored

/-- Whatever happens while a subscriber stays registered, its position is the one join of where it was
and of the messages whose acknowledgements were committed. Every acknowledgement of a stored message
that returns was committed, or the repository did not do what it asked for. -/
theorem acknowledgements_join {s₀ : System} {before : List Event} (ho : s₀.Opened)
    (ht : s₀.host.backend.repository.Tidy s₀.host.destination) (hb : Run Step s₀ before s)
    (hx : s.host.ledger.record k = some x) (h : Run (RegisteredStep k) s tr s') :
    ∃ y, s'.host.ledger.record k = some y ∧ x.acked.sequence ≤ y.acked.sequence ∧
      (∀ w, w = y.acked ↔ x.acked.IsJoin (fun v => ∃ i ∈ acknowledged s.host.spell k tr,
        s'.host.ledger.position s.host.spell i = some v) w) ∧
      (Run (AckStep k) s tr s' →
        ∀ t n r i, .start t n r ∈ tr → r.acks s.host.spell k = some i → .finish t n ∈ tr →
          i ∈ acknowledged s.host.spell k tr ∨ ∃ x, .ask t n r x ∈ tr ∧ x.trouble?.isSome) := by
  have hs := sound_run (sound_opened ho) hb
  have hrec := recorded_run (sound_opened ho) (recorded_opened ho ht) hb
  obtain ⟨y, hy, -, hjoin⟩ := join_run hs hrec hx h
  have hl : s'.host.ledger.Sound := by
    have hs' := sound_run hs (run_mono (fun _ _ _ h => h.step) h)
    exact Repository.committed_sound hs'.backend.repository
  refine ⟨y, hy, Watermark.isJoin_le hjoin, fun w => ⟨fun hw => hw ▸ hjoin, fun hw => ?_⟩,
    fun hack => (returned_run hs hrec hack).2⟩
  refine Watermark.isJoin_unique ?_ hw hjoin
  rintro u v ⟨i, -, hu⟩ ⟨j, -, hv⟩ huv
  exact Ledger.position_inj hl hu hv huv

/-- Two messages, and a subscriber that missed neither. -/
def oneSubscribed : List Choice := System.twoNotes ++
  [.call "main" (.subscribe { destination := "orders", key := ⟨"a", none⟩ } true)]

/-- One thread stops in the middle of an acknowledgement of the first message, another one passes,
resets, registers the subscriber once more and waits with the second message. Then both go on, and the
first message is acknowledged again. -/
def ackedOutOfOrder : List Choice :=
  [.call "main" (.acknowledge ⟨"a", none⟩ "m1" .standard) 2,
    .call "side" (.resetBatching ⟨"a", none⟩),
    .call "side" (.subscribe { destination := "orders", key := ⟨"a", none⟩ } false),
    .resume "main", .resume "side",
    .call "side" (.acknowledge ⟨"a", none⟩ "m2" .standard),
    .call "main" (.recoverNext ⟨"a", none⟩ 5 .reference), .hear "main" (.ok true),
    .call "main" (.acknowledge ⟨"a", none⟩ "m1" .standard)]

theorem second_acked_is_join :
    let s := ((System.fresh "orders").play oneSubscribed).2
    let tr := (s.play ackedOutOfOrder).1
    let s' := (s.play ackedOutOfOrder).2
    acknowledged id ⟨"a", none⟩ tr = ["m1", "m2", "m1"] ∧
      ∃ y, s'.host.ledger.record ⟨"a", none⟩ = some y ∧ y.acked = ⟨2, 0⟩ ∧
        Watermark.start.IsJoin (fun v => ∃ i ∈ ["m1", "m2", "m1"],
          s'.host.ledger.position id i = some v) y.acked ∧
        ∀ t n, .start t n (.acknowledge ⟨"a", none⟩ "m2" .standard) ∈ tr → .finish t n ∈ tr →
          "m2" ∈ ["m1", "m2", "m1"] ∨
            ∃ x, .ask t n (.acknowledge ⟨"a", none⟩ "m2" .standard) x ∈ tr ∧ x.trouble?.isSome := by
  intro s tr s'
  have hopen := System.opened_fresh "orders"
  have h₀ := System.play_run (s := System.fresh "orders") oneSubscribed
  have hs : s.Sound := sound_run (sound_opened hopen) h₀
  have hplay : Run Step s tr s' := System.play_run ackedOutOfOrder
  obtain ⟨h, -⟩ := registered_run (k := ⟨"a", none⟩) hs hplay (by decide +kernel)
    (requests_run (P := fun r => r.deletes = false) h₀ (by simp [hopen.stack]) (by decide +kernel))
    (by decide +kernel)
  have hack : acknowledged id ⟨"a", none⟩ tr = ["m1", "m2", "m1"] := by decide +kernel
  have hstored : ∀ r ∈ calls tr, r.acksStored id s.host.ledger = true := by decide +kernel
  obtain ⟨x, hx, hstart⟩ : ∃ x, s.host.ledger.record ⟨"a", none⟩ = some x ∧ x.acked = .start :=
    Option.map_eq_some_iff.1 (by decide +kernel)
  obtain ⟨y, hy, -, hjoin, hdone⟩ :=
    acknowledgements_join hopen Repository.tidy_inMemory h₀ hx h
  have hlast : (s'.host.ledger.record ⟨"a", none⟩).map (·.acked) = some ⟨2, 0⟩ := by decide +kernel
  have hspell : s.host.spell = id := spell_run (sound_opened hopen) h₀
  have hdone := hdone (ack_run hs h (by rw [hspell]; exact hstored))
  rw [hspell, hack, hstart] at hjoin
  rw [hspell, hack] at hdone
  refine ⟨hack, y, hy, ?_, (hjoin y.acked).1 rfl, fun t n hm hfin => hdone t n _ "m2" hm ?_ hfin⟩
  · rw [hy] at hlast
    exact Option.some.inj hlast
  · rfl

end Store
end DurableTopic

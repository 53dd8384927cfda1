import DurableTopic.Proofs.Coverage
import DurableTopic.Proofs.Reading
/-! Subscribers that are deleted and registered again. A pass starts from a position of the present
record, unless a deletion is committed whose eviction is still ahead. -/
namespace DurableTopic.Store

open Cursor (Thread)
open Repository (Ledger)
open Subscription (Onward)

/-- The deletion of a subscriber is committed, and the eviction of its cursor is still ahead. -/
def Overdue (k : SubscriberKey) (tr : List Event) (s : System) : Prop :=
  ∃ t, ∃ f ∈ s.stack t, f.request = .unsubscribe k ∧ f.stage.forgot ∧
    .ask t f.number (.unsubscribe k) ⟨.commit, .ok ()⟩ ∈ tr

/-- One thing happens, and it does not remove the record of a subscriber. -/
structure KeptStep (k : SubscriberKey) (s : System) (e : Event) (s' : System) : Prop where
  step : Step s e s'
  kept : s'.host.ledger.record k = none → s.host.ledger.record k = none

/-- A position was loaded by a pass of a subscriber, whose record has not been removed since, or is
that of a message which a pass of the subscriber has had accepted since then. -/
def Stems (k : SubscriberKey) (s₀ : System) (tr : List Event) (s : System) (w : Watermark) : Prop :=
  ∃ tr₁ s₁ t n r d w₀ tr₂, tr = tr₁ ++ .ask t n r ⟨.call (.load d k), .ok w₀⟩ :: tr₂ ∧
    r.batches k ∧ Run Step s₀ tr₁ s₁ ∧ w₀ = (s₁.host.ledger.record k).elim .start (·.acked) ∧
    Run (KeptStep k) s₁ (.ask t n r ⟨.call (.load d k), .ok w₀⟩ :: tr₂) s ∧
    (w = w₀ ∨ ∃ o ∈ accepted k tr₂, ∃ x ∈ s.host.ledger.rows, o.IsOf x ∧ w = x.mark)

/-- The positions of a place do so. -/
def Sourced (k : SubscriberKey) (s₀ : System) (tr : List Event) (s : System) (p : Place) : Prop :=
  ∀ w, p.cursor = some w ∨ p.mark = some w → Stems k s₀ tr s w

variable {k : SubscriberKey} {s₀ s s' : System} {tr : List Event} {ev : Event} {t : Thread}
  {w : Watermark} {p p' : Place} {n : Nat} {r : Request} {d : String} {o : Offer} {x : Row}

theorem sourced_cold : Sourced k s₀ tr s {} := by
  rintro w (hw | hw) <;> cases hw

theorem stems_load (hr : Run Step s₀ tr s)
    (he : KeptStep k s (.ask t n r ⟨.call (.load d k), .ok w⟩) s') (hb : r.batches k)
    (hw : w = (s.host.ledger.record k).elim .start (·.acked)) :
    Stems k s₀ (tr ++ [.ask t n r ⟨.call (.load d k), .ok w⟩]) s' w :=
  ⟨tr, s, t, n, r, d, w, [], rfl, hb, hr, hw, (Run.nil s).snoc he, Or.inl rfl⟩

theorem stems_snoc (h : Stems k s₀ tr s w) (hs : s.Sound) (he : KeptStep k s ev s') :
    Stems k s₀ (tr ++ [ev]) s' w := by
  obtain ⟨tr₁, s₁, t, n, r, d, w₀, tr₂, rfl, hb, hr₁, hw₀, hr₂, hw⟩ := h
  refine ⟨tr₁, s₁, t, n, r, d, w₀, tr₂ ++ [ev], by simp, hb, hr₁, hw₀, hr₂.snoc he, ?_⟩
  refine hw.imp id ?_
  rintro ⟨o, ho, x, hx, hox⟩
  exact ⟨o, mem_accepted_snoc ho, x, (rows_step hs he.step).mem hx, hox⟩

theorem stems_accept (h : Stems k s₀ tr s w) (hs : s.Sound) (he : KeptStep k s ev s')
    (hacc : ev.accepts k = some o) (hx : x ∈ s.host.ledger.rows) (ho : o.IsOf x) :
    Stems k s₀ (tr ++ [ev]) s' x.mark := by
  obtain ⟨tr₁, s₁, t, n, r, d, w₀, tr₂, rfl, hb, hr₁, hw₀, hr₂, -⟩ := h
  refine ⟨tr₁, s₁, t, n, r, d, w₀, tr₂ ++ [ev], by simp, hb, hr₁, hw₀, hr₂.snoc he, Or.inr ?_⟩
  exact ⟨o, by simp [accepted_snoc, hacc], x, (rows_step hs he.step).mem hx, ho, rfl⟩

/-- However the place moves, its positions stem from the present record. -/
theorem sourced_step {stray : Prop} (h : Sourced k s₀ tr s p) (hs : s.Sound)
    (hr : Run Step s₀ tr s) (he : KeptStep k s ev s')
    (hm : Place.Step k s.host.ledger stray ev p p') : Sourced k s₀ (tr ++ [ev]) s' p' := by
  have hold : Sourced k s₀ (tr ++ [ev]) s' p := fun w hw => stems_snoc (h w hw) hs he
  cases hm with
  | stay => exact hold
  | load hb hw =>
    rintro v (hv | hv)
    · cases hv
    · cases hv
      exact stems_load hr he hb hw
  | undo =>
    rintro v (hv | hv) <;> cases hv
  | scan => exact hold
  | keep => exact fun v hv => hold v (Or.inr (hv.elim id id))
  | leave => exact hold
  | unwind => exact fun v hv => hold v (Or.inl (hv.elim id id))
  | accept hb habove ho =>
    rintro v (hv | hv)
    · exact hold v (Or.inl hv)
    · cases hv
      exact stems_accept (h _ (Or.inr rfl)) hs he (by simp [Event.accepts, hb])
        (Ledger.mem_above.1 (by rw [habove]; exact List.mem_cons_self)).1 ho

/-- A record that is removed is removed by a deletion, whose eviction is then ahead. -/
theorem removal_step (hs : s.Sound) (h : Step s ev s')
    (hkeys : ∀ t, ∀ f ∈ s.stack t, ∀ j, f.request = .unsubscribe j →
      k.spelled s.host.spell = j.spelled s.host.spell → k = j) :
    KeptStep k s ev s' ∨ Overdue k (tr ++ [ev]) s' := by
  have honward : Onward (s.host.ledger.record k) (s'.host.ledger.record k) →
      KeptStep k s ev s' := by
    refine fun ho => ⟨h, fun hn => ?_⟩
    cases hx : s.host.ledger.record k with
    | none => rfl
    | some x =>
      obtain ⟨y, hy, -⟩ := ho x hx
      simp [hn] at hy
  rcases ledger_step hs h with hleg | ⟨t, f, hf, hev, hforgot, hevolves⟩
  · exact Or.inl (honward (hleg ▸ Subscription.onward_refl _))
  by_cases hdel : ∃ j, f.request = .unsubscribe j ∧ k.spelled s.host.spell = j.spelled s.host.spell
  · obtain ⟨j, hreq, hkj⟩ := hdel
    obtain rfl : k = j := by
      rcases request_step h hf with ⟨g, hg, -, hgr⟩ | hnew
      · exact hkeys t g hg j (hgr.trans hreq) hkj
      · simp [hev, Event.call?] at hnew
    refine Or.inr ⟨t, f, hf, hreq, hforgot k hreq, ?_⟩
    rw [hev, hreq]
    simp
  · exact Or.inl (honward (Ledger.onward_evolves hevolves fun j hreq hkj => hdel ⟨j, hreq, hkj⟩))

/-- A deletion that is overdue stays so until the eviction, after which the passes start anew. -/
theorem overdue_step (hs : s.Sound) (h : Step s ev s') (hd : Overdue k tr s) :
    Overdue k (tr ++ [ev]) s' ∨ ∀ p, At k s' p → p = {} := by
  obtain ⟨t, f, hf, hreq, hforgot, hcommit⟩ := hd
  have hmem := List.mem_append_left [ev] hcommit
  rcases frame_step h hf with hf' | ⟨a, hdone⟩ | ⟨⟨e, a⟩, next, -, rfl, hf'⟩
  · exact Or.inl ⟨t, f, hf', hreq, hforgot, hmem⟩
  · -- A call that is done has evicted.
    have hfollows := (hs.frames t f hf).follows
    rw [hdone] at hfollows
    have hrest : f.stage.forgot = false := hfollows.2.2
    simp [hforgot] at hrest
  · by_cases he : ∃ j, e = .evict j
    · obtain ⟨j, rfl⟩ := he
      exact Or.inr (cold_of_evict hs h hreq)
    · refine Or.inl ⟨t, _, hf', hreq, ?_, hmem⟩
      rw [stage_snoc]
      exact forgot_next hforgot fun j hj => he ⟨j, hj⟩

/-- An eviction is ahead after a deletion, or all positions stem from the present record. -/
theorem incarnation_run (ho : s₀.Opened) (h : Run Step s₀ tr s)
    (hkeys : ∀ j, .unsubscribe j ∈ calls tr →
      k.spelled s₀.host.spell = j.spelled s₀.host.spell → k = j) :
    Overdue k tr s ∨ ∀ p, At k s p → Sourced k s₀ tr s p := by
  induction h with
  | nil =>
    refine Or.inr fun p hp => ?_
    cases hp with
    | cold => exact sourced_cold
    | free hl => exact absurd hl.mapped (by simp [ho.cursors])
    | held _ hu => exact absurd hu.live.mapped (by simp [ho.cursors])
  | snoc h he ih =>
    have hs := sound_run (sound_opened ho) h
    have hframes := requests_run (P := fun r => ∀ j, r = .unsubscribe j →
      k.spelled s₀.host.spell = j.spelled s₀.host.spell → k = j) h (by simp [ho.stack])
      fun r hr j hj => hkeys j (hj ▸ mem_calls_left hr)
    rw [← spell_run (sound_opened ho) h] at hframes
    rcases ih fun j hj => hkeys j (mem_calls_left hj) with hd | hi
    · refine (overdue_step hs he hd).imp id fun hcold p hp => ?_
      exact hcold p hp ▸ sourced_cold
    rcases removal_step hs he hframes with hk | hd
    · refine Or.inr fun p' hp' => ?_
      rcases place_step hs he hp' with ⟨-, rfl⟩ | ⟨p, hp, hm⟩
      · exact sourced_cold
      · exact sourced_step (hi p hp) hs h hk hm
    · exact Or.inl hd

/-- A pass that reads the rows above a position has that position from the present record, unless a
deletion of the subscriber is committed and its eviction is still ahead. -/
theorem scans_own_incarnation {m : Nat} {a : (Effect.call (.scanAfter d k w m)).Reply}
    (ho : s₀.Opened) (h : Run Step s₀ tr s)
    (hkeys : ∀ j, .unsubscribe j ∈ calls tr →
      k.spelled s₀.host.spell = j.spelled s₀.host.spell → k = j)
    (hscan : Step s (.ask t n r ⟨.call (.scanAfter d k w m), a⟩) s') :
    Overdue k tr s ∨ Stems k s₀ tr s w := by
  have hs := sound_run (sound_opened ho) h
  have hatt : Attentive k s :=
    attentive_run (sound_opened ho) h fun t f hf => by simp [ho.stack] at hf
  obtain ⟨-, p, hp, hmark⟩ := at_of_scan hs hatt hscan
  exact (incarnation_run ho h hkeys).imp id fun hi => hi p hp w (Or.inr hmark)

/-- The position above which rows are read for a subscriber, and the rows. -/
def Event.reads (k : SubscriberKey) : Event → Option (Watermark × List Row)
  | .ask _ _ _ ⟨.call (.scanAfter _ j w _), a⟩ => if j = k then some (w, a.rows) else none
  | _ => none

/-- A thread that goes on reads rows for a subscriber. -/
theorem scan_of_go {rows : List Row} (h : (s.go t).bind (·.1.reads k) = some (w, rows)) :
    ∃ t n r d m a s', Step s (.ask t n r ⟨.call (.scanAfter d k w m), a⟩) s' ∧ a.rows = rows := by
  obtain ⟨⟨e, s'⟩, hgo, he⟩ := Option.bind_eq_some_iff.1 h
  have hstep := System.go_step hgo
  unfold Event.reads at he
  split at he
  · rename_i hask
    split at he
    · rename_i hj
      obtain rfl : e = _ := hask
      cases he
      cases hj
      exact ⟨_, _, _, _, _, _, _, hstep, rfl⟩
    · cases he
  · cases he

/-- Two messages are accepted from a pass. -/
def wholePass : List Choice :=
  System.twoNotes ++ [.call "main" (.subscribe { destination := "orders", key := replayed } true),
    .call "main" replaying, .hear "main" (.ok true), .hear "main" (.ok true),
    .hear "main" (.ok true), .hear "main" (.ok true)]

/-- Their subscriber is deleted and registered again, and its next pass is about to read. -/
def recreated : List Choice :=
  wholePass ++ [.call "main" (.unsubscribe replayed),
    .call "main" (.subscribe { destination := "orders", key := replayed } true),
    .call "main" replaying 9]

theorem recreated_from_start :
    let p := (System.fresh "orders").play recreated
    (∃ t n r d m a s', Step p.2 (.ask t n r ⟨.call (.scanAfter d replayed .start m), a⟩) s') ∧
      Stems replayed (System.fresh "orders") p.1 p.2 .start := by
  intro p
  have hrun : Run Step (System.fresh "orders") p.1 p.2 := System.play_run recreated
  obtain ⟨⟨w, rows⟩, hreads, rfl⟩ := Option.map_eq_some_iff.1
    (show ((p.2.go "main").bind (·.1.reads replayed)).map (·.1) = some .start by decide +kernel)
  obtain ⟨t, n, r, d, m, a, s', hscan, -⟩ := scan_of_go hreads
  have hplain := fun j : SubscriberKey =>
    plain_of_memory (k := j) (h := (System.fresh "orders").host) rfl
  have hkeys := fun j (_ : Request.unsubscribe j ∈ calls p.1)
    (h : replayed.spelled _ = j.spelled _) => (hplain replayed).symm.trans (h.trans (hplain j))
  refine ⟨⟨t, n, r, d, m, a, s', hscan⟩, ?_⟩
  refine (scans_own_incarnation (System.opened_fresh "orders") hrun hkeys hscan).resolve_left ?_
  -- No deletion is in progress.
  rintro ⟨u, f, hf, hreq, -⟩
  obtain ⟨-, halone⟩ := serial_run (t := "main") hrun (fun _ _ => rfl) (by decide +kernel)
  have hmain : ∀ f ∈ p.2.stack "main", f.request = replaying := by decide +kernel
  by_cases hu : u = "main"
  · subst hu
    cases hreq.symm.trans (hmain f hf)
  · simp [halone u hu] at hf

/-- A deletion of the subscriber is committed, and its thread goes no further. -/
def halfDeleted : List Choice := wholePass ++ [.call "deleter" (.unsubscribe replayed) 5]

/-- Meanwhile others register the subscriber again and are about to read. -/
def meanwhile : List Choice :=
  [.call "adder" (.subscribe { destination := "orders", key := replayed } true),
    .call "reader" replaying 4]

/-- A pass starts from a position of an earlier record. Since that record was removed, no pass of
the subscriber has kept a position or has had a message accepted. -/
theorem earlier_incarnation_scanned :
    let s₁ := ((System.fresh "orders").play halfDeleted).2
    let p := s₁.play meanwhile
    Run Step (System.fresh "orders") ((System.fresh "orders").play halfDeleted).1 s₁ ∧
      s₁.host.ledger.record replayed = none ∧ Run Step s₁ p.1 p.2 ∧ loaded replayed p.1 = none ∧
      accepted replayed p.1 = [] ∧ p.2.host.ledger.rows.length = 2 ∧
      p.2.host.ledger.record replayed = some ⟨"orders", replayed, "", true, .start⟩ ∧
      ∃ t n r d m a s',
        Step p.2 (.ask t n r ⟨.call (.scanAfter d replayed ⟨2, 0⟩ m), a⟩) s' ∧ a.rows = [] := by
  refine ⟨System.play_run _, by decide +kernel, System.play_run _, by decide +kernel,
    by decide +kernel, by decide +kernel, by decide +kernel, ?_⟩
  exact scan_of_go (t := "reader") (by decide +kernel)

end DurableTopic.Store

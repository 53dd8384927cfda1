import DurableTopic.Proofs.Discipline
import Mathlib.Logic.Relation
/-! Which thread waits for which. A thread waits for a slot that another holds, or for a transaction.
Whoever has a transaction waits for nothing, and whoever holds a slot and keeps to its subscriber
waits only for newer slots, so that no threads wait for each other. -/
namespace DurableTopic.Store

open Cursor (Thread Grant)

/-- The subscriber whose cursor a call uses. -/
def Request.cursor? : Request → Option SubscriberKey
  | recoverNext k .. | resetBatching k | unsubscribe k | cachedWatermark k => some k
  | _ => none

/-- A call that is made inside another minds it if that is no pass, or if it is no pass itself and
uses no cursor but that of the pass. -/
def Request.Minds (r outer : Request) : Prop :=
  ∀ k, outer.batches k → (∀ j, r.batches j = false) ∧ ∀ j, r.cursor? = some j → j = k

/-- Whether a call is about to start its transaction. -/
def Frame.begins (f : Frame) : Bool :=
  match f.rest with
  | .perform .begin _ => true
  | _ => false

namespace Concurrent

/-- A thread waits for another, or for itself: for a slot that this one holds, or for its
transaction. -/
def Waits (s : Concurrent) (t u : Thread) : Prop :=
  (∃ i, s.threads.Awaits t i ∧ (s.threads.cache.slot i).holder = some u) ∨
    (∃ f ∈ (s.store.stack t).head?, f.begins) ∧ ∃ g ∈ s.store.stack u, g.inTransaction

/-- The calls that a thread has made inside its passes mind them. -/
def Considerate (s : Concurrent) (t : Thread) : Prop :=
  (s.store.stack t).Pairwise fun f g => f.request.Minds g.request

variable {s s' : Concurrent} {tr : List Event} {o : Option Event} {t u v : Thread} {f g : Frame}
  {i j : Nat} {k : SubscriberKey} {c : Cursor.Call} {below : List Frame} {r : Request}

/-- A thread stays considerate if what it calls minds the calls that it is in. -/
theorem considerate_step (hc : s.Considerate t) (h : Step s o s')
    (hm : ∀ n r, o = some (.start t n r) → ∀ g ∈ s.store.stack t, r.Minds g.request) :
    s'.Considerate t := by
  have ht := turns h (u := t)
  unfold Considerate at hc ⊢
  generalize s'.store.stack t = fs at ht
  cases ht with
  | kept => exact hc
  | started he => exact List.pairwise_cons.2 ⟨hm _ _ he, hc⟩
  | answered hst =>
    rw [hst, List.pairwise_cons] at hc
    exact List.pairwise_cons.2 hc
  | finished hst =>
    rw [hst, List.pairwise_cons] at hc
    exact hc.2

/-- A call on the cache of cursors is made by a pass that has no slot yet, and acquires one, or by
another call that names the same subscriber. -/
theorem asked_for (hs : s.Sound tr) (hf : f ∈ s.store.stack t) (hc : f.asks c) :
    (∃ k, c = .acquire k ∧ f.request.batches k ∧ f.stage.lease = none) ∨
      (∀ k, c ≠ .acquire k) ∧ (∀ k, f.request.batches k = false) ∧
        c.key? = f.request.cursor? := by
  obtain ⟨d, hd⟩ := hs.follows t f hf
  obtain ⟨n, r, past, rest⟩ := f
  cases rest with
  | done => cases hc
  | perform e next =>
    have hp := hd.1
    cases e with
    | acquire k =>
      obtain rfl := Option.some.inj hc
      exact Or.inl ⟨k, rfl, hp.2.2.2, hp.2.1⟩
    | reset | evict | peek =>
      obtain rfl := Option.some.inj hc
      obtain ⟨-, rfl⟩ := hp
      exact Or.inr ⟨by simp, fun _ => rfl, rfl⟩
    | _ => cases hc

/-- A thread that waits for a slot has a call in progress that asks for it. -/
theorem asker (hs : s.Sound tr) (ha : s.threads.Awaits t i) : ∃ p k f below,
    s.threads.calls t = some p ∧ p.request.key? = some k ∧ s.threads.keys[i]? = some k ∧
      s.store.stack t = f :: below ∧ f.asks p.request := by
  obtain ⟨p, hp, hi, -⟩ := ha
  obtain ⟨k, hk, hkey⟩ := Cursor.Threads.key_of_found hs.threads hp hi
  obtain ⟨f, below, hst, hasks⟩ := hs.asking t p hp
  exact ⟨p, k, f, below, hp, hk, hkey, hst, hasks⟩

/-- Whoever holds a slot has a pass of the slot's subscriber in progress. -/
theorem pass_of_holder (hd : s.Disciplined) (hi : (s.threads.cache.slot i).holder = some t) :
    ∃ gr ∈ s.threads.grants, gr.thread = t ∧ gr.slot = i ∧
      ∃ f ∈ s.store.stack t, f.stage.lease = some i ∧ f.request.batches gr.key := by
  obtain ⟨gr, hg, rfl, rfl⟩ := hd.owned.leased i t hi
  obtain ⟨f, hf, hl, hb⟩ := hd.leased gr hg
  exact ⟨gr, hg, rfl, rfl, f, hf, hl, hb⟩

/-- Where its innermost call is outside of its transaction, a thread has none. -/
theorem untransacted (hs : s.Sound tr) (hd : s.Disciplined) (hst : s.store.stack t = f :: below)
    (hf : f.stage.phase = .closed) (hg : g ∈ s.store.stack t) : g.inTransaction = false := by
  have hphase : g.stage.phase = .closed := by
    have hmem := hg
    rw [hst] at hmem
    rcases List.mem_cons.1 hmem with rfl | hbelow
    · exact hf
    · have hw := hd.waiting t
      rw [hst, List.pairwise_cons] at hw
      exact closed_outside hs hg (Or.inl (hw.1 g hbelow))
  cases hin : g.inTransaction with
  | false => rfl
  | true => exact absurd hphase ((hd.phased t g hg).1 hin)

/-- Who waits for anything has no transaction. -/
theorem untransacted_of_waits (hs : s.Sound tr) (hd : s.Disciplined) (hw : s.Waits t u)
    (hg : g ∈ s.store.stack t) : g.inTransaction = false := by
  rcases hw with ⟨i, ha, -⟩ | ⟨⟨f, hf, hbegins⟩, -⟩
  · obtain ⟨p, k, f, below, -, -, -, hst, hasks⟩ := asker hs ha
    have hf : f ∈ s.store.stack t := top_mem hst
    exact untransacted hs hd hst (closed_outside hs hf (Or.inr (Or.inl ⟨_, hasks⟩))) hg
  · obtain ⟨below, hst⟩ := List.head?_eq_some_iff.1 hf
    refine untransacted hs hd hst ?_ hg
    obtain ⟨d, hfollows⟩ := hs.follows t f (top_mem hst)
    obtain ⟨n, r, past, rest⟩ := f
    cases rest with
    | done => cases hbegins
    | perform e next =>
      cases e with
      | begin => exact hfollows.1
      | _ => cases hbegins

/-- Whoever waits for itself asks for another pass of a subscriber whose pass it is in. -/
theorem nested_of_waits (hs : s.Sound tr) (hd : s.Disciplined) (hw : s.Waits t t) :
    ∃ f below k, s.store.stack t = f :: below ∧ f.request.batches k ∧
      ∃ g ∈ below, g.request.batches k := by
  have hfree := fun g => untransacted_of_waits hs hd hw (g := g)
  rcases hw with ⟨i, ha, hi⟩ | ⟨-, g, hg, hin⟩
  · obtain ⟨k, hp, hkey⟩ := Cursor.Threads.awaits_own hs.threads ha hi
    obtain ⟨gr, hgr, -, hslot, g, hg, hl, hb⟩ := pass_of_holder hd hi
    obtain rfl : gr.key = k := by
      have hk := hs.threads.keyed gr hgr
      rw [hslot, hkey] at hk
      exact (Option.some.inj hk).symm
    obtain ⟨f, below, hst, hasks⟩ := hs.asking t _ hp
    rcases asked_for hs (top_mem hst) hasks with ⟨j, hj, hbatches, hnone⟩ | ⟨hne, -⟩
    · obtain rfl := Cursor.Call.acquire.inj hj
      refine ⟨f, below, gr.key, hst, hbatches, g, ?_, hb⟩
      rw [hst] at hg
      rcases List.mem_cons.1 hg with rfl | hbelow
      · rw [hl] at hnone
        cases hnone
      · exact hbelow
    · exact absurd rfl (hne gr.key)
  · exact absurd hin (by simp [hfree g hg])

/-- A considerate thread that holds a slot and waits for one waits for a newer one. -/
theorem newer_of_awaits (hs : s.Sound tr) (hd : s.Disciplined) (hc : s.Considerate t)
    (hi : (s.threads.cache.slot i).holder = some t) (ha : s.threads.Awaits t j) : i < j := by
  obtain ⟨gr, hgr, hthread, rfl, g, hg, hl, hb⟩ := pass_of_holder hd hi
  obtain ⟨p, k, f, below, hp, hk, hkey, hst, hasks⟩ := asker hs ha
  have hmem := hg
  rw [hst] at hmem
  -- What the thread asks for is asked inside the pass that holds the slot.
  have hbelow : g ∈ below := by
    rcases List.mem_cons.1 hmem with rfl | hbelow
    · rcases asked_for hs (top_mem hst) hasks with ⟨-, -, -, hnone⟩ | ⟨-, hno, -⟩
      · rw [hl] at hnone
        cases hnone
      · rw [hno] at hb
        cases hb
    · exact hbelow
  have hminds : f.request.Minds g.request := by
    unfold Considerate at hc
    rw [hst, List.pairwise_cons] at hc
    exact hc.1 g hbelow
  obtain ⟨hno, hsame⟩ := hminds gr.key hb
  obtain ⟨hne, hcursor⟩ : (∀ k, p.request ≠ .acquire k) ∧ p.request.key? = f.request.cursor? := by
    rcases asked_for hs (top_mem hst) hasks with ⟨j, -, hbatches, -⟩ | ⟨hne, -, hcursor⟩
    · rw [hno] at hbatches
      cases hbatches
    · exact ⟨hne, hcursor⟩
  obtain rfl := hsame k (hcursor.symm.trans hk)
  have hle : gr.slot ≤ j := by
    obtain ⟨q, hq, hj, -⟩ := ha
    exact hd.owned.later t q j hq hj gr hgr hthread hkey
  have hother : gr.slot ≠ j := by
    rintro rfl
    obtain ⟨k, hown, -⟩ := Cursor.Threads.awaits_own hs.threads ha hi
    obtain rfl := Option.some.inj (hp.symm.trans hown)
    exact hne k rfl
  omega

/-- A thread takes a step. -/
def GoesOn (s : Concurrent) (t : Thread) : Prop :=
  ∃ o s', Step s o s' ∧ (s'.store.stack t ≠ s.store.stack t ∨ s'.threads.calls t ≠ s.threads.calls t)

theorem goesOn_of_answered {n : Nat} {x : Exchange} (h : Step s (some (.ask t n r x)) s') :
    s.GoesOn t := by
  obtain ⟨past, next, below, hst, hst'⟩ := answered_top h
  refine ⟨_, s', h, Or.inl fun heq => ?_⟩
  have hsame := congrArg (List.map fun f => f.past.length) (hst'.symm.trans (heq.trans hst))
  simp at hsame

/-- What the cache of cursors answers to a call is what was asked for. -/
theorem replied {e : Effect} {q place : Cursor.Call} {cache : Cursor.Cache} {y : Cursor.Answer}
    (hs : s.threads.Sound) (hp : s.threads.calls t = some ⟨q, place⟩)
    (hstep : s.threads.cache.step t place = .finished cache y) (hc : e.cursorCall = some q) :
    ∃ a, e.replyOf y = some a := by
  cases e with
  | acquire k =>
    obtain rfl := Option.some.inj hc
    have hfits := hs.fits t _ hp
    cases Cursor.Cache.stepped hstep (by simp) with
    | leased => exact ⟨_, rfl⟩
    | unknown _ h => rcases h with ⟨rfl, -⟩ | ⟨rfl, -⟩ | ⟨rfl, -⟩ <;> cases hfits
    | _ => cases hfits
  | reset | evict => exact ⟨_, rfl⟩
  | peek => cases y <;> exact ⟨_, rfl⟩
  | _ => cases hc

/-- A thread that is in a call on the cache of cursors goes on, or waits for a slot. -/
theorem goesOn_inside (hs : s.Sound tr) {p : Cursor.Pending} (hp : s.threads.calls t = some p) :
    s.GoesOn t ∨ ∃ u, s.Waits t u := by
  obtain ⟨q, place⟩ := p
  obtain ⟨⟨n, r, past, rest⟩, below, hst, hasks⟩ := hs.asking t _ hp
  cases rest with
  | done => cases hasks
  | perform e next =>
    have hcall : e.cursorCall = some q := hasks
    cases hstep : s.threads.cache.step t place with
    | blocked =>
      obtain ⟨i, hi⟩ := Cursor.Threads.slot_of_blocked hstep
      have ha : s.threads.Awaits t i := ⟨_, hp, hi, hstep⟩
      obtain ⟨u, hu⟩ := Cursor.Threads.held_of_awaits ha
      exact Or.inr ⟨u, Or.inl ⟨i, ha, hu⟩⟩
    | next c place' =>
      refine Or.inl ⟨_, _, .move (.move hp hstep), Or.inr fun heq => ?_⟩
      have hplace : place' ≠ place := by
        rintro rfl
        cases Cursor.Cache.stepped hstep (by simp) with
        | known _ h => rcases h with ⟨h, h'⟩ | ⟨h, h'⟩ | ⟨h, h'⟩ <;> cases h.symm.trans h'
      rw [hp] at heq
      simp [Cursor.Threads.setCall] at heq
      exact hplace heq
    | finished c y =>
      obtain ⟨a, ha⟩ := replied hs.threads hp hstep hcall
      exact Or.inl (goesOn_of_answered (.answer hst hcall ha (.answer hp hstep)))

/-- A thread that has calls in progress goes on, or waits. -/
theorem goes_on_or_waits (hs : s.Sound tr) (hd : s.Disciplined) (hst : s.store.stack t ≠ []) :
    s.GoesOn t ∨ ∃ u, s.Waits t u := by
  cases hcalls : s.threads.calls t with
  | some p => exact goesOn_inside hs hcalls
  | none =>
    obtain ⟨⟨n, r, past, rest⟩, below, hst⟩ := List.exists_cons_of_ne_nil hst
    cases rest with
    | done a =>
      have hfinish := Step.plain (.finish hst) rfl (by rintro u ⟨⟩; exact hcalls)
      refine Or.inl ⟨_, _, hfinish, Or.inl ?_⟩
      simp [System.setStack, hst]
    | perform e next =>
      have hplain : ∀ a host, Replies t s.store.host e a host → e.usesCursors = false →
          s.GoesOn t := by
        intro a host hr he
        exact goesOn_of_answered (.plain (.ask hst hr) he (by rintro u ⟨⟩; exact hcalls))
      have hbegin : ∀ q, e.cursorCall = some q → s.GoesOn t := by
        intro q hq
        have hstep := Step.begin hst hq (.begin hcalls (isRequest_of_cursorCall hq))
        exact ⟨_, _, hstep, Or.inr (by simp [Cursor.Threads.setCall, hcalls])⟩
      obtain ⟨d, hfollows⟩ := hs.follows t _ (top_mem hst)
      have hp := hfollows.1
      cases e with
      | begin =>
        cases hlocked : s.store.host.isLocked with
        | true =>
          obtain ⟨u, hu⟩ := hd.opened hlocked
          exact Or.inr ⟨u, Or.inr ⟨⟨_, by rw [hst]; rfl, rfl⟩, hu⟩⟩
        | false => exact Or.inl (hplain _ _ (.host rfl (fun _ => hlocked) rfl) rfl)
      | acquire | reset | evict | peek => exact Or.inl (hbegin _ rfl)
      | keep i w =>
        obtain ⟨gr, hgr, hthread, hslot, -⟩ := hs.granted t _ (top_mem hst) i hp.2.1
        exact Or.inl (goesOn_of_answered (.keep hst hthread hslot (.store hcalls hgr)))
      | release i =>
        obtain ⟨gr, hgr, hthread, hslot, -⟩ := hs.granted t _ (top_mem hst) i hp.2.1
        exact Or.inl (goesOn_of_answered
          (.release hst hthread hslot (.release (hthread ▸ hcalls) hgr)))
      | hasCapacity => exact Or.inl (hplain _ _ (.hasCapacity (.ok true)) rfl)
      | offer o => exact Or.inl (hplain _ _ (.offer o (.ok true)) rfl)
      | _ => exact Or.inl (hplain _ _ (.host rfl (by simp) rfl) rfl)

/-- Whoever is waited for and waits itself is waited for because of a slot. -/
theorem slot_of_waits (hs : s.Sound tr) (hd : s.Disciplined) (hw : s.Waits t u)
    (hw' : s.Waits u v) :
    ∃ i, s.threads.Awaits t i ∧ (s.threads.cache.slot i).holder = some u := by
  rcases hw with hslot | ⟨-, g, hg, hin⟩
  · exact hslot
  · exact absurd hin (by simp [untransacted_of_waits hs hd hw' hg])

/-- A considerate thread waits for another. -/
def Edge (s : Concurrent) (t u : Thread) : Prop := s.Considerate t ∧ s.Waits t u

/-- One thread waits for an older slot than another. -/
def Before (s : Concurrent) (t u : Thread) : Prop :=
  ∃ i j, s.threads.Awaits t i ∧ s.threads.Awaits u j ∧ i < j

theorem before_trans (h : s.Before t u) (h' : s.Before u v) : s.Before t v := by
  obtain ⟨i, j, hi, hj, hlt⟩ := h
  obtain ⟨j', m, hj', hm, hlt'⟩ := h'
  obtain rfl := Cursor.Threads.awaits_unique hj hj'
  exact ⟨i, m, hi, hm, by omega⟩

theorem before_of_edges {w : Thread} (hs : s.Sound tr) (hd : s.Disciplined) (h : s.Edge t u)
    (h' : s.Edge u v) (h'' : s.Edge v w) : s.Before t u := by
  obtain ⟨i, hi, hheld⟩ := slot_of_waits hs hd h.2 h'.2
  obtain ⟨j, hj, -⟩ := slot_of_waits hs hd h'.2 h''.2
  exact ⟨i, j, hi, hj, newer_of_awaits hs hd h'.1 hheld hj⟩

/-- Along a chain of threads that wait for each other, the slots become newer. -/
theorem before_of_chain {w : Thread} (hs : s.Sound tr) (hd : s.Disciplined)
    (h : Relation.TransGen s.Edge t u) (h' : s.Edge u v) (h'' : s.Edge v w) : s.Before t u := by
  induction h generalizing v w with
  | single h => exact before_of_edges hs hd h h' h''
  | tail _ hlast ih => exact before_trans (ih hlast h') (before_of_edges hs hd hlast h' h'')

theorem no_cycle (hs : s.Sound tr) (hd : s.Disciplined) : ¬ Relation.TransGen s.Edge t t := by
  intro h
  obtain ⟨u, hu, hback⟩ := Relation.TransGen.head'_iff.1 h
  obtain ⟨v, hv, -⟩ := Relation.TransGen.head'_iff.1 (Relation.TransGen.tail' hback hu)
  obtain ⟨i, j, hi, hj, hlt⟩ := before_of_chain hs hd h hu hv
  obtain rfl := Cursor.Threads.awaits_unique hi hj
  exact Nat.lt_irrefl _ hlt

/-- No listener is asked, and no slot is acquired, given up or looked at, by a thread that has a
transaction, and the transaction that is open is that of a call in progress. A thread goes on unless
it waits for a slot or for the transaction. It waits for itself only to start a pass inside a pass of
the same subscriber, and threads that are considerate never wait for each other in a circle. -/
theorem locks_disciplined {s₀ : System} (h : s₀.Opened) (hr : Run ⟨s₀, {}⟩ tr s) :
    (∀ t f below, s.store.stack t = f :: below → f.Outside →
      ∀ g ∈ f :: below, g.inTransaction = false) ∧
    (s.store.host.isLocked ↔ ∃ t, ∃ f ∈ s.store.stack t, f.inTransaction) ∧
    (∀ t, s.store.stack t ≠ [] → s.GoesOn t ∨ ∃ u, s.Waits t u) ∧
    (∀ t, s.Waits t t → ∃ f below k, s.store.stack t = f :: below ∧ f.request.batches k ∧
      ∃ g ∈ below, g.request.batches k) ∧
    ∀ t, ¬ Relation.TransGen s.Edge t t := by
  have hs := sound_run h hr
  have hd := disciplined_run h hr
  refine ⟨?_, ⟨hd.opened, ?_⟩, ?_, ?_, ?_⟩
  · intro t f below hst ho g hg
    have hclosed := closed_outside hs (top_mem hst) ho
    exact untransacted hs hd hst hclosed (hst ▸ hg)
  · rintro ⟨t, f, hf, hin⟩
    exact hd.taken t f hf hin
  · intro t hst
    exact goes_on_or_waits hs hd hst
  · intro t hw
    exact nested_of_waits hs hd hw
  · intro t
    exact no_cycle hs hd

/-- What a call is about to ask of the cache. -/
def due? (f : Frame) : Option Cursor.Call :=
  match f.rest with
  | .perform e _ => e.cursorCall
  | .done _ => none

/-- While the listener of a pass is asked, another thread is about to give up the cursor of the
subscriber. -/
def resetWithinPass : List Choice :=
  [.call "main" (.publish (System.note "orders" "m1")),
    .call "main" (.subscribe { destination := "orders", key := replayed } true),
    .call "main" replaying, .call "side" (.resetBatching replayed) 0]

/-- The thread waits for the pass, whose listener is asked. -/
theorem resetWithinPass_run : ∃ s, Run ⟨System.fresh "orders", {}⟩
      ((System.fresh "orders").play resetWithinPass).1 s ∧ s.Waits "side" "main" ∧
    ∃ f, s.store.stack "main" = [f] ∧ f.atListener := by
  have hmain : (((System.fresh "orders").play resetWithinPass).2.stack "main").map
      (·.atListener) = [true] := by decide +kernel
  have hside : (((System.fresh "orders").play resetWithinPass).2.stack "side").map
      due? = [some (.reset replayed)] := by decide +kernel
  have hcursors : ((System.fresh "orders").play resetWithinPass).2.host.cursors =
      { slots := [{ watermark := some ⟨-1, 0⟩, holder := some "main" }],
        mapped := (∅ : Assoc _ _).put replayed 0 } := by decide +kernel
  obtain ⟨s, hr, hcalm, hs⟩ := run_atomic (System.opened_fresh "orders")
    (System.play_run resetWithinPass)
  rw [← hs] at hmain hside hcursors
  rw [hcalm.cache] at hcursors
  obtain ⟨f, fs, hst, hf, hfs⟩ := List.map_eq_cons_iff.1 hmain
  obtain rfl := List.map_eq_nil_iff.1 hfs
  obtain ⟨⟨n, r, past, rest⟩, below, hst', hask, -⟩ := List.map_eq_cons_iff.1 hside
  cases rest with
  | done => cases hask
  | perform e next =>
    have hbegin := Step.begin hst' hask (.begin (hcalm.calls "side") rfl)
    have hfound : s.threads.cache.step "side" (.reset replayed) =
        .next s.threads.cache (.resetSlot 0) := by rw [hcursors]; rfl
    have hmove := Step.move
      (s := ⟨s.store, s.threads.setCall "side" (some ⟨.reset replayed, .reset replayed⟩)⟩)
      (.move (if_pos rfl) hfound)
    have hrun := (hr.snoc hbegin).snoc hmove
    simp only [Option.toList_none, List.append_nil] at hrun
    refine ⟨_, hrun, ?_, f, hst, hf⟩
    refine Or.inl ⟨0, ⟨⟨.reset replayed, .resetSlot 0⟩, ?_, rfl, ?_⟩, ?_⟩
    · simp [Cursor.Threads.setCall]
    · change s.threads.cache.step "side" (.resetSlot 0) = .blocked
      rw [hcursors]
      rfl
    · change (s.threads.cache.slot 0).holder = some "main"
      rw [hcursors]
      rfl

theorem reset_within_pass_disciplined : ∃ s, Run ⟨System.fresh "orders", {}⟩
      ((System.fresh "orders").play resetWithinPass).1 s ∧ s.Waits "side" "main" ∧
    (∃ f, s.store.stack "main" = [f] ∧ f.atListener ∧ f.inTransaction = false) ∧
    ¬ Relation.TransGen s.Edge "side" "side" := by
  obtain ⟨s, hr, hw, f, hst, hf⟩ := resetWithinPass_run
  obtain ⟨hfree, -, -, -, hacyclic⟩ := locks_disciplined (System.opened_fresh "orders") hr
  have hin := hfree "main" f [] hst (Or.inl hf) f List.mem_cons_self
  exact ⟨s, hr, hw, ⟨f, hst, hf, hin⟩, hacyclic "side"⟩

end Concurrent
end DurableTopic.Store

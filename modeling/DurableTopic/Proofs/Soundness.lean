import DurableTopic.Proofs.Protocol
/-! What holds of a store however its threads interleave: one transaction at a time, one pass for a
slot, and rows that are read are the next rows. -/
namespace DurableTopic.Repository

/-- Calls of some kind lead from one ledger to another. -/
inductive Ledger.Evolves (spell : String → String) (allowed : Call → Prop) :
    Ledger → Ledger → Prop where
  | refl (l : Ledger) : Evolves spell allowed l l
  | call {l l' l'' : Ledger} {c : Call} {a : c.Reply} (h : Evolves spell allowed l l')
      (hc : allowed c) (ha : l'.Answers spell c a l'') : Evolves spell allowed l l''

theorem Ledger.evolves_rows {spell : String → String} {allowed : Call → Prop} {l l' : Ledger}
    (h : Evolves spell allowed l l') : l.rows <+: l'.rows := by
  induction h with
  | refl => exact List.prefix_refl _
  | call _ _ ha ih => exact ih.trans (answers_rows ha)

/-- Calls that only read change nothing. -/
theorem Ledger.evolves_same {spell : String → String} {allowed : Call → Prop} {l l' : Ledger}
    (h : Evolves spell allowed l l') (hr : ∀ c, allowed c → c.writes = false) : l' = l := by
  induction h with
  | refl => rfl
  | call _ hc ha ih => exact (answers_read ha (hr _ hc)).trans ih

/-- A call that redelivers messages only reads. -/
theorem Ledger.evolves_reads {spell : String → String} {d : String} {r : Store.Request}
    {k : SubscriberKey} {l l' : Ledger} (h : Evolves spell (r.mayCall d) l l')
    (hr : r.redelivers k) : l' = l := by
  refine evolves_same h fun c hc => ?_
  cases r <;> simp only [Store.Request.redelivers, Bool.false_eq_true] at hr
  all_goals cases c <;> simp_all [Store.Request.mayCall, Call.writes]

end DurableTopic.Repository
namespace DurableTopic.Store

open Cursor (Thread)
open Repository (Ledger Stand)

theorem Request.mayCall_destination {d : String} {r : Request} {c : Repository.Call}
    (h : r.mayCall d c) : c.destination = d := by
  cases r <;> cases c <;> simp_all [mayCall, Repository.Call.destination]

theorem Host.stand_idle {h : Host} (hn : h.backend.repository.hasTransaction = false) :
    h.stand = .idle := by
  unfold Host.stand
  cases hb : h.backend.repository with
  | memory ts t => cases t <;> simp_all [Repository.hasTransaction, Repository.stand]
  | embedded c t => cases t <;> simp_all [Repository.hasTransaction, Repository.stand]

/-- What an answer does to a repository. Whoever starts a transaction waits until there is none. -/
inductive Affects (b : Repository.Faulty) : (e : Effect) → e.Reply → Repository.Faulty → Prop where
  | begin (hn : b.repository.hasTransaction = false) : Affects b .begin b.begin.1 b.begin.2
  | call (c : Repository.Call) : Affects b (.call c) (b.perform c).1 (b.perform c).2
  | commit : Affects b .commit b.commit.1 b.commit.2
  | commitFails (f : Failure) (hf : f.isException) : Affects b .commit (.error f) b
  | close : Affects b .close () b.close.2
  | other {e : Effect} {a : e.Reply} (hb : e ≠ .begin) (hcall : ∀ c, e ≠ .call c)
      (hc : e ≠ .commit) (hcl : e ≠ .close) : Affects b e a b

theorem replies_affects {t : Thread} {h h' : Host} {e : Effect} {a : e.Reply}
    (hr : Replies t h e a h') : Affects h.backend e a h'.backend := by
  cases hr with
  | commitFails f hf => exact .commitFails f hf
  | hasCapacity | offer => exact .other (by simp) (by simp) (by simp) (by simp)
  | host hcb hbegin ha =>
    cases e with
    | begin =>
      cases ha
      exact .begin (hbegin rfl)
    | call c =>
      cases ha
      exact .call c
    | commit =>
      cases ha
      exact .commit
    | close =>
      cases ha
      exact .close
    | acquire k =>
      simp only [Host.answer, Host.onCursors] at ha
      cases hq : h.cursors.call t (.acquire k) with
      | none => simp [hq] at ha
      | some q =>
        obtain ⟨⟨i, w⟩ | _ | _, c⟩ := q <;> simp [hq] at ha
        obtain ⟨rfl, rfl⟩ := ha
        exact .other (by simp) (by simp) (by simp) (by simp)
    | reset | evict | peek =>
      simp only [Host.answer, Host.onCursors, Option.map_map, Option.map_eq_some_iff] at ha
      obtain ⟨q, -, heq⟩ := ha
      cases heq
      exact .other (by simp) (by simp) (by simp) (by simp)
    | hasCapacity | offer => cases hcb
    | _ =>
      cases ha
      exact .other (by simp) (by simp) (by simp) (by simp)

/-- What a host does to answer. -/
def Granted (t : Thread) (h h' : Host) : (e : Effect) → e.Reply → Prop
  | .begin, a => h'.cursors = h.cursors ∧ h'.ledger = h.ledger ∧ h.stand = .idle ∧
    ∀ x, a = .ok x → h'.stand = .active h.ledger
  | .call c, a => h'.cursors = h.cursors ∧ h'.ledger = h.ledger ∧
    ∃ l l', h.stand = .active l ∧ h'.stand = .active l' ∧ l.Answers h.spell c a l'
  | .commit, a => h'.cursors = h.cursors ∧ ∃ l, h.stand = .active l ∧
    ((a = .ok () ∧ h'.ledger = l ∧ h'.stand = .ended) ∨
      ((∃ f, a = .error f) ∧ h'.ledger = h.ledger ∧ h'.stand = .active l))
  | .close, _ => h'.cursors = h.cursors ∧ h'.ledger = h.ledger
  | .acquire k, a => h'.backend = h.backend ∧
    h.cursors.call t (.acquire k) = some (.leased a.slot a.cursor, h'.cursors)
  | .keep i w, _ => h'.backend = h.backend ∧ h'.cursors = h.cursors.keep i w
  | .release i, _ => h'.backend = h.backend ∧ h'.cursors = h.cursors.release i
  | .reset k, _ => h'.backend = h.backend ∧
    ∃ a, h.cursors.call t (.reset k) = some (a, h'.cursors)
  | .evict k, _ => h'.backend = h.backend ∧
    ∃ a, h.cursors.call t (.evict k) = some (a, h'.cursors)
  | .peek k, a => h'.backend = h.backend ∧ h'.cursors = h.cursors ∧ a = h.cursors.shown k
  | _, _ => h'.backend = h.backend ∧ h'.cursors = h.cursors

theorem replies_granted {t : Thread} {h h' : Host} {e : Effect} {a : e.Reply}
    (hr : Replies t h e a h') (hb : h.backend.Sound h.destination) (hc : h.cursors.Sound)
    (hcall : ∀ c, e = .call c → c.destination = h.destination ∧ ∃ l, h.stand = .active l)
    (hcommit : e = .commit → ∃ l, h.stand = .active l) :
    h'.destination = h.destination ∧ h'.spell = h.spell ∧ h'.backend.Sound h.destination ∧
    Granted t h h' e a := by
  cases hr with
  | commitFails f =>
    obtain ⟨l, hl⟩ := hcommit rfl
    exact ⟨rfl, rfl, hb, rfl, l, hl, Or.inr ⟨⟨f, rfl⟩, rfl, hl⟩⟩
  | hasCapacity | offer => exact ⟨rfl, rfl, hb, rfl, rfl⟩
  | host hcb hbegin ha =>
    cases e with
    | begin =>
      have hn := hbegin rfl
      have hi := Host.stand_idle hn
      obtain ⟨hs, hk, hsp, hres⟩ := Repository.Faulty.begin_spec hb hn hi
      simp only [Host.answer, Host.begin, Option.some.injEq, Prod.mk.injEq] at ha
      obtain ⟨rfl, rfl⟩ := ha
      refine ⟨rfl, hsp, hs, rfl, hk, hi, ?_⟩
      intro x hx
      rcases hres with ⟨f, hf, -⟩ | ⟨-, hact⟩
      · rw [hf] at hx
        cases hx
      · exact hact
    | call c =>
      obtain ⟨hd, l, hl⟩ := hcall c rfl
      obtain ⟨hs, hk, hsp, l', hl', hans⟩ := Repository.Faulty.perform_answered (c := c) hb hl hd
      simp only [Host.answer, Host.perform, Option.some.injEq, Prod.mk.injEq] at ha
      obtain ⟨rfl, rfl⟩ := ha
      exact ⟨rfl, hsp, hs, rfl, hk, l, l', hl, hl', hans⟩
    | commit =>
      obtain ⟨l, hl⟩ := hcommit rfl
      obtain ⟨hs, hsp, hok, hk, hend⟩ := Repository.Faulty.commit_spec hb hl
      simp only [Host.answer, Host.commit, Option.some.injEq, Prod.mk.injEq] at ha
      obtain ⟨rfl, rfl⟩ := ha
      exact ⟨rfl, hsp, hs, rfl, l, hl, Or.inl ⟨hok, hk, hend⟩⟩
    | close =>
      obtain ⟨hs, hk, hsp, -⟩ := Repository.Faulty.close_spec hb
      simp only [Host.answer, Host.close, Option.some.injEq, Prod.mk.injEq] at ha
      obtain ⟨-, rfl⟩ := ha
      exact ⟨rfl, hsp, hs, rfl, hk⟩
    | acquire k =>
      simp only [Host.answer, Host.onCursors] at ha
      cases hq : h.cursors.call t (.acquire k) with
      | none => simp [hq] at ha
      | some q =>
        obtain ⟨⟨i, w⟩ | _ | _, c⟩ := q <;> simp [hq] at ha
        obtain ⟨rfl, rfl⟩ := ha
        exact ⟨rfl, rfl, hb, rfl, hq⟩
    | keep | release =>
      cases ha
      exact ⟨rfl, rfl, hb, rfl, rfl⟩
    | reset k =>
      simp only [Host.answer, Host.onCursors, Option.map_map, Option.map_eq_some_iff] at ha
      obtain ⟨q, hq, heq⟩ := ha
      cases heq
      exact ⟨rfl, rfl, hb, rfl, q.1, hq⟩
    | evict k =>
      simp only [Host.answer, Host.onCursors, Option.map_map, Option.map_eq_some_iff] at ha
      obtain ⟨q, hq, heq⟩ := ha
      cases heq
      exact ⟨rfl, rfl, hb, rfl, q.1, hq⟩
    | peek k =>
      simp only [Host.answer, Host.onCursors, Option.map_map, Option.map_eq_some_iff] at ha
      obtain ⟨⟨q, c⟩, hq, heq⟩ := ha
      obtain ⟨rfl, rfl⟩ := Cursor.Cache.peek_spec hc hq
      cases heq
      exact ⟨rfl, rfl, hb, rfl, rfl, rfl⟩
    | hasCapacity | offer => cases hcb
    | _ =>
      cases ha
      exact ⟨rfl, rfl, hb, rfl, rfl⟩

/-- Where a call in progress stands. -/
def Frame.stage (f : Frame) : Stage := f.past.foldl Stage.next {}

/-- What holds of a call in progress of a thread. -/
structure Frame.Sound (t : Thread) (h : Host) (f : Frame) : Prop where
  follows : f.rest.Follows h.destination f.request (fun s _ => s.Rests) f.stage
  fits : f.stage.Fits f.request
  active : f.stage.phase = .active → ∃ l, h.stand = .active l ∧
    Ledger.Evolves h.spell (f.request.mayCall h.destination) h.ledger l
  ended : f.stage.phase = .ended → h.stand = .ended
  leased : ∀ i, f.stage.lease = some i → (h.cursors.slot i).holder = some t ∧
    (h.cursors.slot i).watermark = f.stage.cursor ∧
    ∃ k, f.request.batches k ∧ ∀ j, h.cursors.mapped.find? j = some i → j = k
  scanned : ∀ w, f.stage.mark = some w → f.stage.rows <+: h.ledger.above w

/-- What holds of a store and all calls in progress. -/
structure System.Sound (s : System) : Prop where
  backend : s.host.backend.Sound s.host.destination
  cursors : s.host.cursors.Sound
  frames : ∀ t, ∀ f ∈ s.stack t, f.Sound t s.host
  waits : ∀ t f fs, s.stack t = f :: fs → ∀ g ∈ fs, g.atListener
  apart : ∀ t u f g, f ∈ s.stack t → g ∈ s.stack u → f.stage.phase ≠ .closed →
    g.stage.phase ≠ .closed → t = u
  unshared : ∀ t, (s.stack t).Pairwise fun f g =>
    ∀ i, f.stage.lease = some i → g.stage.lease ≠ some i
  held : ∀ t i, (s.host.cursors.slot i).holder = some t → ∃ f ∈ s.stack t, f.stage.lease = some i
  numbered : ∀ t, ∀ f ∈ s.stack t, f.number < s.count

variable {t u : Thread} {h h' : Host} {f g : Frame} {e : Effect} {a : e.Reply}

theorem stage_snoc {n : Nat} {r : Request} {past : List Exchange} {x : Exchange}
    {rest : Operation (Except Failure r.Result)} :
    (Frame.mk n r (past ++ [x]) rest).stage = (past.foldl Stage.next {}).next x := by
  simp [Frame.stage]

theorem listens_of_atListener (hf : f.Sound t h) (ha : f.atListener) :
    f.stage.Listens f.request := by
  obtain ⟨n, r, past, rest⟩ := f
  have hw := hf.follows
  cases rest with
  | done a => cases ha
  | perform e next =>
    cases e with
    | hasCapacity => exact hw.1
    | offer o => exact hw.1.1
    | _ => cases ha

theorem frame_sound_carry (hf : f.Sound t h) (hd : h'.destination = h.destination)
    (hrows : h.ledger.rows <+: h'.ledger.rows)
    (hopen : f.stage.phase ≠ .closed →
      h'.stand = h.stand ∧ h'.ledger = h.ledger ∧ h'.spell = h.spell)
    (hslot : ∀ i, f.stage.lease = some i →
      (h'.cursors.slot i).holder = (h.cursors.slot i).holder ∧
      (h'.cursors.slot i).watermark = (h.cursors.slot i).watermark ∧
      ∀ j, h'.cursors.mapped.find? j = some i → h.cursors.mapped.find? j = some i) :
    f.Sound t h' where
  follows := hd ▸ hf.follows
  fits := hf.fits
  active hp := by
    obtain ⟨hs, hl, hsp⟩ := hopen (by simp [hp])
    rw [hs, hl, hsp, hd]
    exact hf.active hp
  ended hp := by
    rw [(hopen (by simp [hp])).1]
    exact hf.ended hp
  leased i hi := by
    obtain ⟨hh, hw, hm⟩ := hslot i hi
    obtain ⟨ht, hc, k, hk, hj⟩ := hf.leased i hi
    exact ⟨hh.trans ht, hw.trans hc, k, hk, fun j hji => hj j (hm j hji)⟩
  scanned w hw := (hf.scanned w hw).trans (Ledger.above_prefix hrows)

/-- A slot that another thread or another call holds is left alone. -/
theorem granted_slot {i : Nat} (hg : Granted t h h' e a) (hc : h.cursors.Sound)
    (hi : (h.cursors.slot i).holder = some u)
    (hkeep : ∀ n w, e = .keep n w → n ≠ i ∧ n < h.cursors.slots.length)
    (hrelease : ∀ n, e = .release n → n ≠ i ∧ n < h.cursors.slots.length) :
    (h'.cursors.slot i).holder = (h.cursors.slot i).holder ∧
    (h'.cursors.slot i).watermark = (h.cursors.slot i).watermark ∧
    ∀ j, h'.cursors.mapped.find? j = some i → h.cursors.mapped.find? j = some i := by
  have hsame : h'.cursors = h.cursors →
      (h'.cursors.slot i).holder = (h.cursors.slot i).holder ∧
      (h'.cursors.slot i).watermark = (h.cursors.slot i).watermark ∧
      ∀ j, h'.cursors.mapped.find? j = some i → h.cursors.mapped.find? j = some i := by
    intro he
    rw [he]
    exact ⟨rfl, rfl, fun _ hj => hj⟩
  cases e with
  | begin | call | commit | close => exact hsame hg.1
  | acquire k =>
    obtain ⟨n, -, hfree, -, hmap, hslot, -⟩ := Cursor.Cache.acquire_spec hc hg.2
    have hne : i ≠ n := by
      rintro rfl
      simp [hi] at hfree
    refine ⟨by rw [hslot, if_neg hne], by rw [hslot, if_neg hne], fun j hj => ?_⟩
    rw [hmap] at hj
    split at hj
    · cases hj
      exact absurd rfl hne
    · exact hj
  | keep n w =>
    obtain ⟨hne, hn⟩ := hkeep n w rfl
    rw [hg.2, Cursor.Cache.keep]
    rw [Cursor.Cache.slot_setSlot hn, if_neg hne.symm]
    exact ⟨rfl, rfl, fun j hj => hj⟩
  | release n =>
    obtain ⟨hne, hn⟩ := hrelease n rfl
    rw [hg.2, Cursor.Cache.release]
    rw [Cursor.Cache.slot_setSlot hn, if_neg hne.symm]
    exact ⟨rfl, rfl, fun j hj => hj⟩
  | reset k =>
    obtain ⟨-, b, hb⟩ := hg
    obtain ⟨hmap, -, hslot⟩ := Cursor.Cache.reset_spec (hc.inside k) hb
    rw [hslot, hmap]
    split
    · simp [Cursor.Slot.forgotten, hi]
    · exact ⟨rfl, rfl, fun j hj => hj⟩
  | evict k =>
    obtain ⟨-, b, hb⟩ := hg
    obtain ⟨hmap, -, hslot⟩ := Cursor.Cache.evict_spec (hc.inside k) hb
    have hm : ∀ j, h'.cursors.mapped.find? j = some i → h.cursors.mapped.find? j = some i := by
      intro j hj
      rw [hmap] at hj
      split at hj
      · cases hj
      · exact hj
    rw [hslot]
    split
    · simpa [Cursor.Slot.evicted, hi] using hm
    · exact ⟨rfl, rfl, hm⟩
  | peek k => exact hsame hg.2.1
  | _ => exact hsame hg.2

theorem ledger_of_backend (hb : h'.backend = h.backend) (hd : h'.destination = h.destination) :
    h'.ledger = h.ledger ∧ h'.stand = h.stand := by
  simp [Host.ledger, Host.stand, hb, hd]

section

variable {n : Nat} {r : Request} {past : List Exchange}
  {next : e.Reply → Operation (Except Failure r.Result)}

theorem opened_next (hf : (Frame.mk n r past (.perform e next)).Sound t h)
    (hg : Granted t h h' e a) (hd : h'.destination = h.destination) (hsp : h'.spell = h.spell) :
    (((Frame.mk n r past (.perform e next)).stage.next ⟨e, a⟩).phase = .active →
      ∃ l, h'.stand = .active l ∧
        Ledger.Evolves h'.spell (r.mayCall h'.destination) h'.ledger l) ∧
    (((Frame.mk n r past (.perform e next)).stage.next ⟨e, a⟩).phase = .ended →
      h'.stand = .ended) := by
  have hperm := hf.follows.1
  have hactive := hf.active
  have hended := hf.ended
  generalize (Frame.mk n r past (.perform e next)).stage = s at *
  rw [hsp, hd]
  have hkept : h'.backend = h.backend →
      (s.phase = .active → ∃ l, h'.stand = .active l ∧
        Ledger.Evolves h.spell (r.mayCall h.destination) h'.ledger l) ∧
      (s.phase = .ended → h'.stand = .ended) := by
    intro hb
    obtain ⟨hl, hst⟩ := ledger_of_backend hb hd
    rw [hl, hst]
    exact ⟨hactive, hended⟩
  cases e with
  | begin =>
    have hp : s.phase = .closed := hperm
    obtain ⟨-, hl, -, hact⟩ := hg
    rcases a with f | x
    · exact ⟨fun h => by simp [Stage.next, hp] at h, fun h => by simp [Stage.next, hp] at h⟩
    · exact ⟨fun _ => ⟨_, hact x rfl, hl ▸ .refl _⟩, by rintro ⟨⟩⟩
  | call c =>
    obtain ⟨hp, hmay, -⟩ := hperm
    obtain ⟨-, hl, l, l', hst, hst', ha⟩ := hg
    obtain ⟨l₁, hst₁, hev⟩ := hactive hp
    obtain rfl : l₁ = l := by simpa [hst₁] using hst
    rw [Stage.next_phase (by simp) (by simp) (by simp), hp, hl]
    exact ⟨fun _ => ⟨l', hst', hev.call hmay ha⟩, by rintro ⟨⟩⟩
  | commit =>
    obtain ⟨hp, -⟩ := hperm
    obtain ⟨-, l, hst, ⟨rfl, hl, hst'⟩ | ⟨⟨f, rfl⟩, hl, hst'⟩⟩ := hg
    · exact ⟨by rintro ⟨⟩, fun _ => hst'⟩
    · obtain ⟨l₁, hst₁, hev⟩ := hactive hp
      obtain rfl : l₁ = l := by simpa [hst₁] using hst
      refine ⟨fun _ => ⟨_, hst', hl ▸ hev⟩, fun h => ?_⟩
      simp [Stage.next, hp] at h
  | close => exact ⟨by rintro ⟨⟩, by rintro ⟨⟩⟩
  | _ =>
    rw [Stage.next_phase (by simp) (by simp) (by simp)]
    exact hkept hg.1

theorem leased_next (hf : (Frame.mk n r past (.perform e next)).Sound t h)
    (hg : Granted t h h' e a) (hc : h.cursors.Sound) (i : Nat)
    (hi : ((Frame.mk n r past (.perform e next)).stage.next ⟨e, a⟩).lease = some i) :
    (h'.cursors.slot i).holder = some t ∧
    (h'.cursors.slot i).watermark =
      ((Frame.mk n r past (.perform e next)).stage.next ⟨e, a⟩).cursor ∧
    ∃ k, r.batches k ∧ ∀ j, h'.cursors.mapped.find? j = some i → j = k := by
  have hperm := hf.follows.1
  have hleased := hf.leased
  generalize (Frame.mk n r past (.perform e next)).stage = s at *
  have hkept : s.lease = some i → (∀ n w, e ≠ .keep n w) → (∀ n, e ≠ .release n) →
      (h'.cursors.slot i).holder = some t ∧ (h'.cursors.slot i).watermark = s.cursor ∧
      ∃ k, r.batches k ∧ ∀ j, h'.cursors.mapped.find? j = some i → j = k := by
    intro hi hk hr
    obtain ⟨hh, hw, k, hb, hj⟩ := hleased i hi
    obtain ⟨hh', hw', hm⟩ := granted_slot hg hc hh (fun n w he => absurd he (hk n w))
      (fun n he => absurd he (hr n))
    exact ⟨hh'.trans hh, hw'.trans hw, k, hb, fun j hji => hj j (hm j hji)⟩
  cases e with
  | acquire k =>
    obtain ⟨-, -, -, hb⟩ := hperm
    obtain ⟨m, hm, -, hold, hmap, hslot, -⟩ := Cursor.Cache.acquire_spec hc hg.2
    simp only [Cursor.Answer.leased.injEq] at hm
    obtain rfl : m = i := hm.1.symm.trans (Option.some.inj hi)
    rw [hslot, if_pos rfl]
    refine ⟨rfl, hm.2.symm, k, hb, fun j hj => ?_⟩
    rw [hmap] at hj
    split at hj
    · assumption
    · rcases hold with hold | ⟨-, rfl⟩
      · exact hc.single j k _ hj hold
      · exact absurd (hc.inside j _ hj) (Nat.lt_irrefl _)
  | keep m w =>
    obtain ⟨-, hl, -⟩ := hperm
    obtain rfl : m = i := Option.some.inj (hl.symm.trans hi)
    obtain ⟨hh, -, k, hb, hj⟩ := hleased m hl
    rw [hg.2, Cursor.Cache.keep, Cursor.Cache.slot_setSlot (Cursor.Cache.held_inside hh),
      if_pos rfl]
    exact ⟨hh, rfl, k, hb, hj⟩
  | release m => cases hi
  | _ =>
    rw [Stage.next_lease (by simp) (by simp)] at hi
    rw [Stage.next_cursor (by simp) (by simp)]
    exact hkept hi (by simp) (by simp)

/-- What is committed only grows. -/
theorem granted_rows (hf : (Frame.mk n r past (.perform e next)).Sound t h)
    (hg : Granted t h h' e a) (hd : h'.destination = h.destination) :
    h.ledger.rows <+: h'.ledger.rows := by
  have hsame : h'.ledger = h.ledger → h.ledger.rows <+: h'.ledger.rows :=
    fun heq => heq ▸ List.prefix_refl _
  cases e with
  | begin => exact hsame hg.2.1
  | call => exact hsame hg.2.1
  | close => exact hsame hg.2
  | commit =>
    obtain ⟨-, l, hst, ⟨-, hl, -⟩ | ⟨-, hl, -⟩⟩ := hg
    · obtain ⟨l₁, hst₁, hev⟩ := hf.active hf.follows.1.1
      obtain rfl : l₁ = l := by simpa [hst₁] using hst
      rw [hl]
      exact Ledger.evolves_rows hev
    · exact hsame hl
  | _ => exact hsame (ledger_of_backend hg.1 hd).1

/-- Rows that were read above a position are all left to offer. -/
theorem ahead_of_scanned {s : Stage} {l : Ledger} {w : Watermark} (hm : s.mark = some w)
    (hpre : s.rows <+: l.above w) : s.ahead = s.rows := by
  simp only [Stage.ahead, hm]
  cases hr : s.rows with
  | nil => rfl
  | cons row rest =>
    have hmem : row ∈ l.above w := hpre.mem (by simp [hr])
    have := (Ledger.mem_above.1 hmem).2
    rw [List.dropWhile_cons_of_neg]
    simp [Row.mark, this]

theorem scanned_failed {s : Stage} {l : Ledger} {w : Watermark} {f : Failure}
    (hs : ∀ w, s.mark = some w → s.rows <+: l.above w) (hw : (s.failed f).mark = some w) :
    (s.failed f).rows <+: l.above w := by
  unfold Stage.failed at hw ⊢
  split at hw
  · rw [if_pos ‹_›]
    exact hs w hw
  · rw [if_neg ‹_›]
    exact List.nil_prefix

theorem scanned_passed {s : Stage} {l : Ledger} {w : Watermark} (hl : l.Sound)
    (hs : ∀ w, s.mark = some w → s.rows <+: l.above w) (hw : s.passed.mark = some w) :
    s.passed.rows <+: l.above w := by
  cases hm : s.mark with
  | none =>
    unfold Stage.passed at hw
    split at hw <;> simp [hm] at hw
  | some v =>
    have hpre := hs v hm
    have hahead := ahead_of_scanned hm hpre
    unfold Stage.passed at hw ⊢
    rw [hahead] at hw ⊢
    cases hr : s.rows with
    | nil =>
      simp only [hr] at hw ⊢
      exact List.nil_prefix
    | cons row rest =>
      simp only [hr, hm, Option.map_some, Option.some.injEq] at hw ⊢
      subst hw
      rw [hr] at hpre
      obtain ⟨more, hmore⟩ := hpre
      rw [Ledger.above_first hl hmore.symm]
      exact List.prefix_append ..

theorem scanned_next (hf : (Frame.mk n r past (.perform e next)).Sound t h)
    (hg : Granted t h h' e a) (hd : h'.destination = h.destination) (hl : h'.ledger.Sound)
    (w : Watermark)
    (hw : ((Frame.mk n r past (.perform e next)).stage.next ⟨e, a⟩).mark = some w) :
    ((Frame.mk n r past (.perform e next)).stage.next ⟨e, a⟩).rows <+: h'.ledger.above w := by
  have hperm := hf.follows.1
  have hfits := hf.fits
  have hactive := hf.active
  have hscanned : ∀ w, _ → _ <+: h'.ledger.above w := fun w hw =>
    (hf.scanned w hw).trans (Ledger.above_prefix (granted_rows hf hg hd))
  generalize (Frame.mk n r past (.perform e next)).stage = s at *
  cases e with
  | begin => rcases a with f | _ <;> exact hscanned w hw
  | acquire k =>
    have : s.rows = [] := hperm.2.2.1
    exact this ▸ List.nil_prefix
  | commit =>
    rcases a with f | _
    · rcases hperm.2.1 with hcm | ⟨-, hr⟩
      · exact hscanned w (hcm ▸ hw)
      · exact hr ▸ List.nil_prefix
    · exact hscanned w hw
  | call c =>
    obtain ⟨hp, hmay, hreads⟩ := hperm
    obtain ⟨-, hsame, l, l', hst, -, ha⟩ := hg
    obtain ⟨l₁, hst₁, hev⟩ := hactive hp
    obtain rfl : l₁ = l := by simpa [hst₁] using hst
    cases c with
    | load d k =>
      rcases a with f | v
      · exact hscanned w hw
      · have : s.rows = [] := hreads.2
        exact this ▸ List.nil_prefix
    | scanAfter d k v m =>
      cases r <;> simp only [Request.mayCall] at hmay
      rename_i j limit mode
      have hev : l₁ = h.ledger := Ledger.evolves_reads (k := j) hev (by simp [Request.redelivers])
      have hv : v = w := by
        have hm : s.mark = some v := hreads
        exact Option.some.inj (hm.symm.trans hw)
      subst hv hev
      rw [hsame]
      refine ha.2.trans ?_
      cases h.ledger.record k with
      | none => exact List.nil_prefix
      | some _ => exact List.prefix_refl _
    | scanAll d k =>
      cases r <;> simp only [Request.mayCall] at hmay
      have hm := (hfits.plain (by simp [Request.batches])).2.2
      have hw : s.mark = some w := hw
      rw [hm] at hw
      cases hw
    | _ => exact hscanned w hw
  | hasCapacity =>
    rcases a with f | _
    · exact scanned_failed hscanned hw
    · exact hscanned w hw
  | offer o =>
    rcases a with f | _ | _
    · exact scanned_failed hscanned hw
    · exact hscanned w hw
    · exact scanned_passed hl hscanned hw
  | _ => exact hscanned w hw

theorem frame_sound_next (hf : (Frame.mk n r past (.perform e next)).Sound t h)
    (hg : Granted t h h' e a) (hc : h.cursors.Sound) (hd : h'.destination = h.destination)
    (hsp : h'.spell = h.spell) (hl : h'.ledger.Sound) :
    (Frame.mk n r (past ++ [⟨e, a⟩]) (next a)).Sound t h' := by
  obtain ⟨hactive, hended⟩ := opened_next hf hg hd hsp
  have hstage : (Frame.mk n r (past ++ [⟨e, a⟩]) (next a)).stage =
      (Frame.mk n r past (.perform e next)).stage.next ⟨e, a⟩ := stage_snoc
  exact {
    follows := by rw [hstage, hd]; exact hf.follows.2 a
    fits := by rw [hstage]; exact Stage.fits_next hf.fits hf.follows.1 a
    active := by rw [hstage]; exact hactive
    ended := by rw [hstage]; exact hended
    leased := by rw [hstage]; exact leased_next hf hg hc
    scanned := by rw [hstage]; exact scanned_next hf hg hd hl }

end

theorem granted_cursors (hg : Granted t h h' e a) (hc : h.cursors.Sound)
    (hkeep : ∀ i w, e = .keep i w → i < h.cursors.slots.length)
    (hrelease : ∀ i, e = .release i → i < h.cursors.slots.length) : h'.cursors.Sound := by
  cases e with
  | begin | call | commit | close => exact hg.1 ▸ hc
  | acquire k => exact Cursor.Cache.sound_acquire hc hg.2
  | keep i w => exact hg.2 ▸ Cursor.Cache.sound_keep hc (hkeep i w rfl)
  | release i => exact hg.2 ▸ Cursor.Cache.sound_release hc (hrelease i rfl)
  | reset k => exact Cursor.Cache.sound_reset hc hg.2.choose_spec
  | evict k => exact Cursor.Cache.sound_evict hc hg.2.choose_spec
  | peek k => exact hg.2.1 ▸ hc
  | _ => exact hg.2 ▸ hc

/-- Only the start of a transaction opens one. -/
theorem closed_next {s : Stage} (hp : s.phase = .closed) (hn : (s.next ⟨e, a⟩).phase ≠ .closed)
    {d : String} {r : Request} (hperm : s.Permits d r e) : e = .begin := by
  cases e with
  | begin => rfl
  | call => exact absurd (hp.symm.trans hperm.1) (by simp)
  | commit => exact absurd (hp.symm.trans hperm.1) (by simp)
  | close => exact absurd rfl hn
  | _ =>
    rw [Stage.next_phase (by simp) (by simp) (by simp)] at hn
    exact absurd hp hn

/-- Only an acquisition gives a lease. -/
theorem lease_next {s : Stage} {i : Nat} (hi : (s.next ⟨e, a⟩).lease = some i) :
    s.lease = some i ∨ ∃ k, e = .acquire k := by
  cases e with
  | acquire k => exact Or.inr ⟨k, rfl⟩
  | release => cases hi
  | _ =>
    rw [Stage.next_lease (by simp) (by simp)] at hi
    exact Or.inl hi

/-- Who is outside of transactions does nothing to the transaction of another call. -/
theorem granted_outside {s : Stage} {d : String} {r : Request} (hp : s.phase = .closed)
    (hperm : s.Permits d r e) (hg : Granted t h h' e a) (hd : h'.destination = h.destination)
    (hbusy : h.stand ≠ .idle) : h'.stand = h.stand ∧ h'.ledger = h.ledger := by
  have hkept : h'.backend = h.backend → h'.stand = h.stand ∧ h'.ledger = h.ledger :=
    fun hb => (ledger_of_backend hb hd).symm
  cases e with
  | begin => exact absurd hg.2.2.1 hbusy
  | call => exact absurd (hp.symm.trans hperm.1) (by simp)
  | commit => exact absurd (hp.symm.trans hperm.1) (by simp)
  | close => exact absurd hp hperm
  | _ => exact hkept hg.1

theorem busy_of_open (hf : f.Sound t h) (hp : f.stage.phase ≠ .closed) : h.stand ≠ .idle := by
  intro hi
  cases hs : f.stage.phase with
  | closed => exact hp hs
  | active =>
    obtain ⟨l, hl, -⟩ := hf.active hs
    simp [hi] at hl
  | ended =>
    have := hf.ended hs
    simp [hi] at this

/-- Who holds a slot after an answer held it before, or was given it. -/
theorem granted_holder {n i : Nat} {r : Request} {past : List Exchange}
    {next : e.Reply → Operation (Except Failure r.Result)} (hg : Granted t h h' e a)
    (hc : h.cursors.Sound) (hf : (Frame.mk n r past (.perform e next)).Sound t h)
    (hi : (h'.cursors.slot i).holder = some u) :
    (u = t ∧ ((Frame.mk n r past (.perform e next)).stage.next ⟨e, a⟩).lease = some i) ∨
    ((h.cursors.slot i).holder = some u ∧
      ((Frame.mk n r past (.perform e next)).stage.lease = some i →
        ((Frame.mk n r past (.perform e next)).stage.next ⟨e, a⟩).lease = some i)) := by
  have hperm := hf.follows.1
  have hleased := hf.leased
  generalize (Frame.mk n r past (.perform e next)).stage = s at *
  cases e with
  | acquire k =>
    obtain ⟨m, hm, hfree, -, -, hslot, -⟩ := Cursor.Cache.acquire_spec hc hg.2
    simp only [Cursor.Answer.leased.injEq] at hm
    rw [hslot] at hi
    split at hi
    · rename_i him
      refine Or.inl ⟨(Option.some.inj hi).symm, ?_⟩
      simp [Stage.next, hm.1, him]
    · refine Or.inr ⟨hi, fun hl => ?_⟩
      rw [hperm.2.1] at hl
      cases hl
  | release m =>
    obtain ⟨-, hl, -⟩ := hperm
    rw [hg.2, Cursor.Cache.release, Cursor.Cache.slot_setSlot
      (Cursor.Cache.held_inside (hleased m hl).1)] at hi
    split at hi
    · cases hi
    · rename_i him
      refine Or.inr ⟨hi, fun hl' => ?_⟩
      exact absurd (Option.some.inj (hl'.symm.trans hl)) him
  | keep m w =>
    obtain ⟨-, hl, -⟩ := hperm
    rw [hg.2, Cursor.Cache.keep, Cursor.Cache.slot_setSlot
      (Cursor.Cache.held_inside (hleased m hl).1)] at hi
    split at hi
    · rename_i him
      subst him
      exact Or.inr ⟨hi, fun hl => hl⟩
    · exact Or.inr ⟨hi, fun hl => hl⟩
  | reset k =>
    obtain ⟨-, b, hb⟩ := hg
    obtain ⟨-, -, hslot⟩ := Cursor.Cache.reset_spec (hc.inside k) hb
    refine Or.inr ⟨?_, fun hl => hl⟩
    rw [hslot] at hi
    split at hi
    · unfold Cursor.Slot.forgotten at hi
      split at hi <;> exact hi
    · exact hi
  | evict k =>
    obtain ⟨-, b, hb⟩ := hg
    obtain ⟨-, -, hslot⟩ := Cursor.Cache.evict_spec (hc.inside k) hb
    refine Or.inr ⟨?_, fun hl => hl⟩
    rw [hslot] at hi
    split at hi
    · unfold Cursor.Slot.evicted at hi
      split at hi <;> exact hi
    · exact hi
  | begin | call | commit | close =>
    refine Or.inr ⟨hg.1 ▸ hi, fun hl => ?_⟩
    rwa [Stage.next_lease (by simp) (by simp)]
  | peek k => exact Or.inr ⟨hg.2.1 ▸ hi, fun hl => hl⟩
  | _ =>
    refine Or.inr ⟨hg.2 ▸ hi, fun hl => ?_⟩
    rwa [Stage.next_lease (by simp) (by simp)]

section

variable {s s' : System} {n : Nat} {r : Request} {past : List Exchange}
  {next : e.Reply → Operation (Except Failure r.Result)} {below : List Frame}

theorem ask_granted (hs : s.Sound) (hst : s.stack t = ⟨n, r, past, .perform e next⟩ :: below)
    (hr : Replies t s.host e a h') :
    h'.destination = s.host.destination ∧ h'.spell = s.host.spell ∧
    h'.backend.Sound s.host.destination ∧ Granted t s.host h' e a := by
  have hf := hs.frames t _ (by rw [hst]; exact List.mem_cons_self)
  have hperm := hf.follows.1
  refine replies_granted hr hs.backend hs.cursors ?_ ?_
  · rintro c rfl
    obtain ⟨l, hl, -⟩ := hf.active hperm.1
    exact ⟨Request.mayCall_destination hperm.2.1, l, hl⟩
  · rintro rfl
    obtain ⟨l, hl, -⟩ := hf.active hperm.1
    exact ⟨l, hl⟩

theorem mem_of_other (hst : s.stack t = f :: below)
    (hgu : u = t ∧ g ∈ below ∨ u ≠ t ∧ g ∈ s.stack u) : g ∈ s.stack u := by
  rcases hgu with ⟨rfl, hb⟩ | ⟨-, hb⟩
  · rw [hst]
    exact List.mem_cons_of_mem _ hb
  · exact hb

/-- No two calls hold one slot. -/
theorem lease_other {i : Nat} (hs : s.Sound) (hst : s.stack t = f :: below)
    (hgu : u = t ∧ g ∈ below ∨ u ≠ t ∧ g ∈ s.stack u) (hi : g.stage.lease = some i) :
    f.stage.lease ≠ some i := by
  intro hfi
  have hf := hs.frames t f (by rw [hst]; exact List.mem_cons_self)
  have hg := hs.frames u g (mem_of_other hst hgu)
  rcases hgu with ⟨rfl, hb⟩ | ⟨hne, -⟩
  · have hun := hs.unshared u
    rw [hst, List.pairwise_cons] at hun
    exact hun.1 g hb i hfi hi
  · exact hne (Option.some.inj ((hg.leased i hi).1.symm.trans (hf.leased i hfi).1))

/-- What the calls that do not move keep when another call is answered. -/
theorem ask_other (hs : s.Sound) (hst : s.stack t = ⟨n, r, past, .perform e next⟩ :: below)
    (hg : Granted t s.host h' e a) (hd : h'.destination = s.host.destination)
    (hsp : h'.spell = s.host.spell) (hgu : u = t ∧ g ∈ below ∨ u ≠ t ∧ g ∈ s.stack u) :
    g.Sound u h' := by
  have hmem : Frame.mk n r past (.perform e next) ∈ s.stack t := by
    rw [hst]; exact List.mem_cons_self
  have hf := hs.frames t _ hmem
  have hgs := hs.frames u g (mem_of_other hst hgu)
  have hlease := fun i => lease_other (i := i) hs hst hgu
  refine frame_sound_carry hgs hd (granted_rows hf hg hd) ?_ ?_
  · intro hopen
    rcases hgu with ⟨rfl, hb⟩ | ⟨hne, hgm⟩
    · exact absurd (listens_of_atListener hgs (hs.waits u _ _ hst g hb)).phase hopen
    · by_cases hp : (Frame.mk n r past (.perform e next)).stage.phase = .closed
      · obtain ⟨hstand, hl⟩ := granted_outside hp hf.follows.1 hg hd (busy_of_open hgs hopen)
        exact ⟨hstand, hl, hsp⟩
      · exact absurd (hs.apart u t _ _ hgm hmem hopen hp) hne
  · intro i hi
    refine granted_slot hg hs.cursors (hgs.leased i hi).1 ?_ ?_
    · rintro m w rfl
      have hm := hf.follows.1.2.1
      refine ⟨?_, Cursor.Cache.held_inside (hf.leased m hm).1⟩
      rintro rfl
      exact hlease m hi hm
    · rintro m rfl
      have hm := hf.follows.1.2.1
      refine ⟨?_, Cursor.Cache.held_inside (hf.leased m hm).1⟩
      rintro rfl
      exact hlease m hi hm

/-- A slot is held by a call that was given it. -/
theorem held_ask {i : Nat} (hs : s.Sound)
    (hst : s.stack t = ⟨n, r, past, .perform e next⟩ :: below) (hg : Granted t s.host h' e a)
    (hi : (h'.cursors.slot i).holder = some u) :
    ∃ f ∈ (s.setStack t (⟨n, r, past ++ [⟨e, a⟩], next a⟩ :: below)).stack u,
      f.stage.lease = some i := by
  have hf := hs.frames t _ (by rw [hst]; exact List.mem_cons_self)
  have hstage : (Frame.mk n r (past ++ [⟨e, a⟩]) (next a)).stage =
      (Frame.mk n r past (.perform e next)).stage.next ⟨e, a⟩ := stage_snoc
  rcases granted_holder hg hs.cursors hf hi with ⟨rfl, hl⟩ | ⟨hold, hkept⟩
  · refine ⟨_, by simp [System.setStack], hstage ▸ hl⟩
  · obtain ⟨g, hgm, hgl⟩ := hs.held u i hold
    by_cases hu : u = t
    · subst hu
      rw [hst] at hgm
      rcases List.mem_cons.1 hgm with rfl | hgb
      · exact ⟨_, by simp [System.setStack], hstage ▸ hkept hgl⟩
      · exact ⟨g, by simp [System.setStack, hgb], hgl⟩
    · exact ⟨g, by simp [System.setStack, hu, hgm], hgl⟩

/-- While a call is open after an answer, no other thread has an open call. -/
theorem open_ask (hs : s.Sound) (hst : s.stack t = ⟨n, r, past, .perform e next⟩ :: below)
    (hg : Granted t s.host h' e a)
    (hopen : (Frame.mk n r (past ++ [⟨e, a⟩]) (next a)).stage.phase ≠ .closed) (hu : u ≠ t)
    (hgu : g ∈ s.stack u) : g.stage.phase = .closed := by
  have hmem : Frame.mk n r past (.perform e next) ∈ s.stack t := by
    rw [hst]; exact List.mem_cons_self
  have hf := hs.frames t _ hmem
  rw [stage_snoc] at hopen
  refine Classical.byContradiction fun hgo => ?_
  by_cases hp : (Frame.mk n r past (.perform e next)).stage.phase = .closed
  · -- Nobody may begin while a call is open.
    have he := closed_next hp hopen hf.follows.1
    subst he
    exact busy_of_open (hs.frames u g hgu) hgo hg.2.2.1
  · exact hu (hs.apart u t _ _ hgu hmem hgo hp)

theorem apart_ask {v : Thread} (hs : s.Sound)
    (hst : s.stack t = ⟨n, r, past, .perform e next⟩ :: below) (hg : Granted t s.host h' e a)
    (hfu : f ∈ (s.setStack t (⟨n, r, past ++ [⟨e, a⟩], next a⟩ :: below)).stack u)
    (hgv : g ∈ (s.setStack t (⟨n, r, past ++ [⟨e, a⟩], next a⟩ :: below)).stack v)
    (hfo : f.stage.phase ≠ .closed) (hgo : g.stage.phase ≠ .closed) : u = v := by
  have hbelow : ∀ x ∈ below, x.stage.phase = .closed := fun x hx =>
    (listens_of_atListener (hs.frames t x (by rw [hst]; exact List.mem_cons_of_mem _ hx))
      (hs.waits t _ _ hst x hx)).phase
  rcases mem_setStack hfu with ⟨rfl, rfl⟩ | ⟨-, hfb⟩ | ⟨hut, hfs⟩
  · rcases mem_setStack hgv with ⟨rfl, -⟩ | ⟨-, hgb⟩ | ⟨hvt, hgs⟩
    · rfl
    · exact absurd (hbelow g hgb) hgo
    · exact absurd (open_ask hs hst hg hfo hvt hgs) hgo
  · exact absurd (hbelow f hfb) hfo
  · rcases mem_setStack hgv with ⟨rfl, rfl⟩ | ⟨-, hgb⟩ | ⟨-, hgs⟩
    · exact absurd (open_ask hs hst hg hgo hut hfs) hfo
    · exact absurd (hbelow g hgb) hgo
    · exact hs.apart u v f g hfs hgs hfo hgo

theorem unshared_ask (hs : s.Sound) (hst : s.stack t = ⟨n, r, past, .perform e next⟩ :: below)
    (hg : Granted t s.host h' e a) :
    ((s.setStack t (⟨n, r, past ++ [⟨e, a⟩], next a⟩ :: below)).stack u).Pairwise fun f g =>
      ∀ i, f.stage.lease = some i → g.stage.lease ≠ some i := by
  simp only [System.setStack]
  split
  · have hun := hs.unshared t
    rw [hst, List.pairwise_cons] at hun
    refine List.pairwise_cons.2 ⟨?_, hun.2⟩
    intro x hx i hi hxi
    rw [stage_snoc] at hi
    rcases lease_next hi with hi | ⟨k, rfl⟩
    · exact hun.1 x hx i hi hxi
    · -- A lease that is given is given on a slot that nobody holds.
      obtain ⟨m, hm, hfree, -⟩ := Cursor.Cache.acquire_spec hs.cursors hg.2
      simp only [Cursor.Answer.leased.injEq] at hm
      obtain rfl : m = i := hm.1.symm.trans (Option.some.inj hi)
      have hx := (hs.frames t x (by rw [hst]; exact List.mem_cons_of_mem _ hx)).leased _ hxi
      simp [hfree] at hx
  · exact hs.unshared u

theorem sound_ask (hs : s.Sound) (hst : s.stack t = ⟨n, r, past, .perform e next⟩ :: below)
    (hr : Replies t s.host e a h') :
    System.Sound { s.setStack t (⟨n, r, past ++ [⟨e, a⟩], next a⟩ :: below) with host := h' } := by
  obtain ⟨hd, hsp, hb, hg⟩ := ask_granted hs hst hr
  have hmem : Frame.mk n r past (.perform e next) ∈ s.stack t := by
    rw [hst]; exact List.mem_cons_self
  have hf := hs.frames t _ hmem
  constructor
  case backend => exact hd ▸ hb
  case cursors =>
    exact granted_cursors hg hs.cursors
      (by rintro i w rfl; exact Cursor.Cache.held_inside (hf.leased i hf.follows.1.2.1).1)
      (by rintro i rfl; exact Cursor.Cache.held_inside (hf.leased i hf.follows.1.2.1).1)
  case frames =>
    intro u g hgu
    rcases mem_setStack hgu with ⟨rfl, rfl⟩ | hother
    · have hl : h'.ledger.Sound := by
        unfold Host.ledger
        rw [hd]
        exact Repository.committed_sound hb.repository
      exact frame_sound_next hf hg hs.cursors hd hsp hl
    · exact ask_other hs hst hg hd hsp hother
  case waits =>
    intro u f fs hu
    simp only [System.setStack] at hu
    split at hu
    · obtain ⟨-, rfl⟩ := List.cons.inj hu
      exact hs.waits t _ _ hst
    · exact hs.waits u f fs hu
  case apart =>
    intro u v f g hfu hgv hfo hgo
    exact apart_ask hs hst hg hfu hgv hfo hgo
  case unshared =>
    intro u
    exact unshared_ask hs hst hg
  case held =>
    intro u i hi
    exact held_ask hs hst hg hi
  case numbered =>
    intro u f hfu
    rcases mem_setStack hfu with ⟨rfl, rfl⟩ | hother
    · have hlt := hs.numbered u _ hmem
      exact hlt
    · exact hs.numbered u f (mem_of_other hst hother)

theorem sound_start (hs : s.Sound) (hl : ∀ f ∈ (s.stack t).head?, f.atListener) :
    System.Sound { s.setStack t
      (⟨s.count, r, [], r.operation s.host.destination⟩ :: s.stack t) with
      count := s.count + 1 } := by
  have hnew : (Frame.mk s.count r [] (r.operation s.host.destination)).stage = {} := rfl
  have hold : ∀ {u f}, f ∈ (s.setStack t
      (⟨s.count, r, [], r.operation s.host.destination⟩ :: s.stack t)).stack u →
      f = ⟨s.count, r, [], r.operation s.host.destination⟩ ∨ f ∈ s.stack u := by
    intro u f hf
    rcases mem_setStack hf with ⟨-, rfl⟩ | ⟨rfl, hf⟩ | ⟨-, hf⟩
    · exact Or.inl rfl
    · exact Or.inr hf
    · exact Or.inr hf
  constructor
  case backend => exact hs.backend
  case cursors => exact hs.cursors
  case frames =>
    intro u f hf
    rcases hold hf with rfl | hf
    · exact ⟨operation_follows r, Stage.fits_initial, by simp [hnew], by simp [hnew],
        by simp [hnew], by simp [hnew]⟩
    · exact hs.frames u f hf
  case waits =>
    intro u f fs hu g hg
    simp only [System.setStack] at hu
    split at hu
    · obtain ⟨-, rfl⟩ := List.cons.inj hu
      cases hst : s.stack t with
      | nil => simp [hst] at hg
      | cons top rest =>
        rw [hst] at hg hl
        rcases List.mem_cons.1 hg with rfl | hg
        · exact hl _ (by simp)
        · exact hs.waits t _ _ hst g hg
    · exact hs.waits u f fs hu g hg
  case apart =>
    intro u v f g hf hg hfo hgo
    rcases hold hf with rfl | hf
    · exact absurd rfl hfo
    · rcases hold hg with rfl | hg
      · exact absurd rfl hgo
      · exact hs.apart u v f g hf hg hfo hgo
  case unshared =>
    intro u
    simp only [System.setStack]
    split
    · exact List.pairwise_cons.2 ⟨by simp [hnew], hs.unshared t⟩
    · exact hs.unshared u
  case held =>
    intro u i hi
    obtain ⟨f, hf, hl⟩ := hs.held u i hi
    refine ⟨f, ?_, hl⟩
    simp only [System.setStack]
    split
    · rename_i hu
      exact List.mem_cons_of_mem _ (hu ▸ hf)
    · exact hf
  case numbered =>
    intro u f hf
    rcases hold hf with rfl | hf
    · exact Nat.lt_succ_self _
    · exact Nat.lt_succ_of_lt (hs.numbered u f hf)

theorem sound_finish {x : Except Failure r.Result} (hs : s.Sound)
    (hst : s.stack t = ⟨n, r, past, .done x⟩ :: below) :
    (s.setStack t below).Sound := by
  have hold : ∀ {u g}, g ∈ (s.setStack t below).stack u → g ∈ s.stack u := mem_of_finished hst
  constructor
  case backend => exact hs.backend
  case cursors => exact hs.cursors
  case frames =>
    intro u g hg
    exact hs.frames u g (hold hg)
  case waits =>
    intro u g fs hu x hx
    simp only [System.setStack] at hu
    split at hu
    · exact hs.waits t _ _ hst x (by rw [hu]; exact List.mem_cons_of_mem _ hx)
    · exact hs.waits u g fs hu x hx
  case apart =>
    intro u v f g hf hg
    exact hs.apart u v f g (hold hf) (hold hg)
  case unshared =>
    intro u
    simp only [System.setStack]
    split
    · have hun := hs.unshared t
      rw [hst, List.pairwise_cons] at hun
      exact hun.2
    · exact hs.unshared u
  case held =>
    intro u i hi
    obtain ⟨g, hg, hl⟩ := hs.held u i hi
    refine ⟨g, ?_, hl⟩
    simp only [System.setStack]
    split
    · rename_i hu
      rw [hu, hst] at hg
      rcases List.mem_cons.1 hg with rfl | hg
      · -- A call that is done has given its lease back.
        have hr := (hs.frames t _ (by rw [hst]; exact List.mem_cons_self)).follows
        have hnone : (Frame.mk n r past (.done x)).stage.lease = none := hr.2.1
        rw [hnone] at hl
        cases hl
      · exact hg
    · exact hg
  case numbered =>
    intro u g hg
    exact hs.numbered u g (hold hg)

theorem sound_disturb {faults : Repository.Faults} (hs : s.Sound) (hf : faults.Honest) :
    System.Sound { s with host.backend.faults := faults } := by
  refine ⟨⟨hs.backend.repository, hf⟩, hs.cursors, fun u g hg => ?_, hs.waits, hs.apart,
    hs.unshared, hs.held, hs.numbered⟩
  have := hs.frames u g hg
  exact ⟨this.follows, this.fits, this.active, this.ended, this.leased, this.scanned⟩

/-- Whatever happens, the store stays in order. -/
theorem sound_step {ev : Event} (hs : s.Sound) (h : Step s ev s') : s'.Sound := by
  cases h with
  | start r hl => exact sound_start hs hl
  | ask hst hr => exact sound_ask hs hst hr
  | finish hst => exact sound_finish hs hst
  | disturb hf => exact sound_disturb hs hf

/-- What is committed only grows. -/
theorem rows_step {ev : Event} (hs : s.Sound) (h : Step s ev s') :
    s.host.ledger.rows <+: s'.host.ledger.rows := by
  cases h with
  | ask hst hr =>
    obtain ⟨hd, -, -, hg⟩ := ask_granted hs hst hr
    exact granted_rows (hs.frames _ _ (hst ▸ List.mem_cons_self)) hg hd
  | _ => exact List.prefix_refl _

theorem sound_run {tr : List Event} (hs : s.Sound) (h : Run Step s tr s') : s'.Sound := by
  induction h with
  | nil => exact hs
  | snoc _ he ih => exact sound_step ih he

theorem rows_run {tr : List Event} (hs : s.Sound) (h : Run Step s tr s') :
    s.host.ledger.rows <+: s'.host.ledger.rows := by
  induction h with
  | nil => exact List.prefix_refl _
  | snoc h he ih => exact ih.trans (rows_step (sound_run hs h) he)

theorem sound_opened (h : s.Opened) : s.Sound := by
  refine ⟨h.repository, h.cursors ▸ Cursor.Cache.sound_empty, ?_, ?_, ?_, ?_, ?_, ?_⟩ <;>
    simp [h.stack, h.cursors, Cursor.Cache.slot]

theorem sound_reachable (h : s.Reachable) : s.Sound := by
  obtain ⟨s₀, tr, ho, hr⟩ := h
  exact sound_run (sound_opened ho) hr

end

end DurableTopic.Store

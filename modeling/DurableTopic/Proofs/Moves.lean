import DurableTopic.Proofs.Soundness
/-! What an answer means for one subscriber: for its slot, and for the passes under its cursor. -/
namespace DurableTopic.Store

open Cursor (Thread Cache)
open Repository (Ledger)

/-- The slot of a subscriber is as it was. -/
structure SameSlot (k : SubscriberKey) (c c' : Cache) : Prop where
  mapped : c'.mapped.find? k = c.mapped.find? k
  slot : ∀ i, c.mapped.find? k = some i → c'.slot i = c.slot i

/-- A stage has the lease, the positions and the rows of another. -/
structure Stage.Same (s s' : Stage) : Prop where
  lease : s'.lease = s.lease
  cursor : s'.cursor = s.cursor
  mark : s'.mark = s.mark
  rows : s'.rows = s.rows

/-- What an answer may mean for a subscriber, by the call that is answered and by its stage. -/
inductive Moves (k : SubscriberKey) (t : Thread) (h h' : Host) (r : Request) (s : Stage) :
    (e : Effect) → e.Reply → Prop where
  /-- The call is no pass of the subscriber. -/
  | aside {e : Effect} {a : e.Reply} (hb : r.batches k = false)
      (hslot : SameSlot k h.cursors h'.cursors) : Moves k t h h' r s e a
  /-- A pass does not move. -/
  | still {e : Effect} {a : e.Reply} (hb : r.batches k) (hslot : SameSlot k h.cursors h'.cursors)
      (hsame : s.Same (s.next ⟨e, a⟩)) (hidle : ∀ n, (Event.ask t n r ⟨e, a⟩).Idle k) :
      Moves k t h h' r s e a
  | load {d : String} {w : Watermark} (hb : r.batches k) (hslot : SameSlot k h.cursors h'.cursors)
      (hcursor : s.cursor = none) (hrows : s.rows = [])
      (hw : w = (h.ledger.record k).elim .start (·.acked)) :
      Moves k t h h' r s (.call (.load d k)) (.ok w)
  /-- The position that was loaded is not kept. -/
  | undo {f : Failure} (hb : r.batches k) (hslot : SameSlot k h.cursors h'.cursors)
      (hcursor : s.cursor = none) (hrows : s.rows = []) : Moves k t h h' r s .commit (.error f)
  | scan {d : String} {w : Watermark} {m : Nat} {a : (Effect.call (.scanAfter d k w m)).Reply}
      (hb : r.batches k) (hslot : SameSlot k h.cursors h'.cursors) (hmark : s.mark = some w)
      (hrows : (s.next ⟨.call (.scanAfter d k w m), a⟩).rows <+:
        (h.ledger.record k).elim [] fun _ => h.ledger.above w) :
      Moves k t h h' r s (.call (.scanAfter d k w m)) a
  | acquire {l : Lease} (hb : r.batches k) (hlease : s.lease = none) (hrows : s.rows = [])
      (hfree : (h.cursors.slot l.slot).holder = none)
      (hold : h.cursors.mapped.find? k = some l.slot ∨
        h.cursors.mapped.find? k = none ∧ h.cursors.slot l.slot = {})
      (hcursor : l.cursor = (h.cursors.slot l.slot).watermark)
      (hmap : h'.cursors.mapped.find? k = some l.slot)
      (hslot : h'.cursors.slot l.slot = { h.cursors.slot l.slot with holder := some t }) :
      Moves k t h h' r s (.acquire k) l
  | keep {i : Nat} {w : Watermark} {x : Unit} (hb : r.batches k) (hlease : s.lease = some i)
      (hmark : s.mark = some w) (hmap : h'.cursors.mapped.find? k = h.cursors.mapped.find? k)
      (hslot : ∀ j, h'.cursors.slot j =
        if j = i then { h.cursors.slot i with watermark := some w } else h.cursors.slot j) :
      Moves k t h h' r s (.keep i w) x
  | release {i : Nat} {x : Unit} (hb : r.batches k) (hlease : s.lease = some i)
      (hcursor : s.cursor = s.mark) (hwater : (h.cursors.slot i).watermark = s.cursor)
      (hmap : h'.cursors.mapped.find? k = h.cursors.mapped.find? k)
      (hslot : ∀ j, h'.cursors.slot j =
        if j = i then (h.cursors.slot i).released else h.cursors.slot j) :
      Moves k t h h' r s (.release i) x
  | accept {o : Offer} {i : Nat} {v w : Watermark} {row : Row} {rest more : List Row}
      (hb : r.batches k) (hslot : SameSlot k h.cursors h'.cursors) (hlease : s.lease = some i)
      (hcursor : s.cursor = some v) (hmark : s.mark = some w)
      (hrows : s.rows = row :: rest) (habove : h.ledger.above w = row :: rest ++ more)
      (ho : o.IsOf row)
      (hnext : s.next ⟨.offer o, .ok true⟩ = { s with mark := some row.mark, rows := rest }) :
      Moves k t h h' r s (.offer o) (.ok true)
  /-- The pass falls back to its cursor. -/
  | unwind {e : Effect} {a : e.Reply} {i : Nat} {v : Watermark} (hb : r.batches k)
      (hslot : SameSlot k h.cursors h'.cursors) (hlease : s.lease = some i)
      (hup : ∀ n, (Event.ask t n r ⟨e, a⟩).unwinds k) (hcursor : s.cursor = some v)
      (hnext : s.next ⟨e, a⟩ = { s with mark := some v, rows := [] }) : Moves k t h h' r s e a
  | reset {x : Unit} (hr : r = .resetBatching k)
      (hmap : h'.cursors.mapped.find? k = h.cursors.mapped.find? k)
      (hslot : ∀ i, h.cursors.mapped.find? k = some i →
        h'.cursors.slot i = (h.cursors.slot i).forgotten) : Moves k t h h' r s (.reset k) x
  | evict {x : Unit} (hr : r = .unsubscribe k) (hmap : h'.cursors.mapped.find? k = none) :
      Moves k t h h' r s (.evict k) x

variable {k : SubscriberKey} {t : Thread} {s : System} {h' : Host} {e : Effect} {a : e.Reply}
  {n : Nat} {r : Request} {past : List Exchange}
  {next : e.Reply → Operation (Except Failure r.Result)} {below : List Frame}

theorem sameSlot_of_eq {c c' : Cache} (h : c' = c) : SameSlot k c c' := by
  subst h
  exact ⟨rfl, fun _ _ => rfl⟩

/-- Whoever is given another slot leaves the subscriber's alone. -/
theorem sameSlot_of_acquire {j : SubscriberKey} {c c' : Cache} {b : Cursor.Answer} (hc : c.Sound)
    (h : c.call t (.acquire j) = some (b, c')) (hjk : k ≠ j) : SameSlot k c c' := by
  obtain ⟨m, -, -, hold, hmap, hslot, -⟩ := Cache.acquire_spec hc h
  refine ⟨by simp [hmap, hjk], fun i hi => ?_⟩
  rw [hslot, if_neg]
  rintro rfl
  rcases hold with hold | ⟨-, rfl⟩
  · exact hjk (hc.single k j _ hi hold)
  · exact absurd (hc.inside k _ hi) (Nat.lt_irrefl _)

/-- Whoever is evicted leaves no other subscriber's slot changed. -/
theorem sameSlot_of_evict {j : SubscriberKey} {c c' : Cache} {b : Cursor.Answer} (hc : c.Sound)
    (h : c.call t (.evict j) = some (b, c')) (hjk : k ≠ j) : SameSlot k c c' := by
  obtain ⟨hmap, -, hslot⟩ := Cache.evict_spec (hc.inside j) h
  refine ⟨by simp [hmap, hjk], fun i hi => ?_⟩
  rw [hslot, if_neg fun hji => hjk (hc.single k j i hi hji)]

theorem sameSlot_of_reset {j : SubscriberKey} {c c' : Cache} {b : Cursor.Answer} (hc : c.Sound)
    (h : c.call t (.reset j) = some (b, c')) (hjk : k ≠ j) : SameSlot k c c' := by
  obtain ⟨hmap, -, hslot⟩ := Cache.reset_spec (hc.inside j) h
  refine ⟨by rw [hmap], fun i hi => ?_⟩
  rw [hslot, if_neg fun hji => hjk (hc.single k j i hi hji)]

theorem sameSlot_of_setSlot {i : Nat} {c : Cache} {x : Cursor.Slot} (hi : i < c.slots.length)
    (hk : c.mapped.find? k ≠ some i) : SameSlot k c (c.setSlot i x) := by
  refine ⟨rfl, fun j hj => ?_⟩
  rw [Cache.slot_setSlot hi, if_neg]
  rintro rfl
  exact hk hj

/-- A pass offers the first row above its position. -/
theorem offers_first {o : Offer} {st : Stage} {l : Ledger} {w : Watermark} {row : Row}
    {rest : List Row} (hm : st.mark = some w) (hpre : st.rows <+: l.above w)
    (ha : st.ahead = row :: rest) :
    st.rows = row :: rest ∧ (∃ more, l.above w = row :: rest ++ more) ∧
      st.next ⟨.offer o, .ok true⟩ = { st with mark := some row.mark, rows := rest } := by
  have hrows : st.rows = row :: rest := (ahead_of_scanned hm hpre).symm.trans ha
  obtain ⟨more, hmore⟩ := hpre
  refine ⟨hrows, ⟨more, by rw [← hmore, hrows]⟩, ?_⟩
  simp [Stage.next, Stage.passed, ha, hm]

section

variable {h : Host} {st : Stage} {j : SubscriberKey} {i : Nat} {w : Watermark} {x : Unit}

/-- An answer that leaves the slots and the stage alone is no move. -/
theorem moves_still (hcur : h'.cursors = h.cursors) (hsame : st.Same (st.next ⟨e, a⟩))
    (hidle : ∀ n, (Event.ask t n r ⟨e, a⟩).Idle k) : Moves k t h h' r st e a := by
  cases hb : r.batches k with
  | false => exact .aside hb (sameSlot_of_eq hcur)
  | true => exact .still hb (sameSlot_of_eq hcur) hsame hidle

theorem moves_of_call {d : String} {c : Repository.Call} {b : c.Reply} {l : Ledger}
    (hcur : h'.cursors = h.cursors) (hmay : r.mayCall d c) (hreads : st.Reads c)
    (hev : Ledger.Evolves h.spell (r.mayCall d) h.ledger l)
    {l' : Ledger} (ha : l.Answers h.spell c b l') : Moves k t h h' r st (.call c) b := by
  cases hb : r.batches k with
  | false => exact .aside hb (sameSlot_of_eq hcur)
  | true =>
    obtain rfl : l = h.ledger := Ledger.evolves_reads hev (Request.redelivers_of_batches hb)
    cases r <;> simp only [Request.batches, Bool.false_eq_true, decide_eq_true_eq] at hb
    subst hb
    cases c <;> simp only [Request.mayCall] at hmay
    case load =>
      obtain ⟨rfl, rfl⟩ := hmay
      rcases b with f | w
      · exact moves_still hcur ⟨rfl, rfl, rfl, rfl⟩ fun _ => ⟨rfl, rfl, rfl⟩
      · exact .load (by simp [Request.batches]) (sameSlot_of_eq hcur) hreads.1 hreads.2 (ha.2 w rfl)
    case scanAfter =>
      obtain ⟨rfl, rfl⟩ := hmay
      exact .scan (by simp [Request.batches]) (sameSlot_of_eq hcur) hreads ha.2

theorem moves_of_acquire {l : Lease} (hc : h.cursors.Sound) (hlease : st.lease = none)
    (hrows : st.rows = []) (hb : r.batches j)
    (hcall : h.cursors.call t (.acquire j) = some (.leased l.slot l.cursor, h'.cursors)) :
    Moves k t h h' r st (.acquire j) l := by
  by_cases hjk : k = j
  · subst hjk
    obtain ⟨i, hl, hfree, hold, hmap, hslot, -⟩ := Cache.acquire_spec hc hcall
    simp only [Cursor.Answer.leased.injEq] at hl
    obtain ⟨rfl, hcursor⟩ := hl
    refine .acquire hb hlease hrows hfree ?_ hcursor (by simp [hmap]) (by simp [hslot])
    rcases hold with hold | ⟨hnone, hlen⟩
    · exact Or.inl hold
    · exact Or.inr ⟨hnone, by rw [hlen]; exact Cache.slot_outside (Nat.le_refl _)⟩
  · refine .aside (Bool.eq_false_iff.2 ?_) (sameSlot_of_acquire hc hcall hjk)
    intro hbk
    exact hjk (Request.batches_unique hbk hb)

/-- Whoever has a lease on a slot has it for the subscriber that the slot is mapped to. -/
theorem sameSlot_of_leased {y : Cursor.Slot} (hheld : (h.cursors.slot i).holder = some t)
    (hbj : r.batches j) (hj : ∀ m, h.cursors.mapped.find? m = some i → m = j)
    (hb : r.batches k = false) : SameSlot k h.cursors (h.cursors.setSlot i y) := by
  refine sameSlot_of_setSlot (Cache.held_inside hheld) ?_
  intro hk
  simp [hj k hk, hbj] at hb

theorem moves_of_keep (hheld : (h.cursors.slot i).holder = some t) (hbj : r.batches j)
    (hj : ∀ m, h.cursors.mapped.find? m = some i → m = j) (hlease : st.lease = some i)
    (hmark : st.mark = some w) (hcur : h'.cursors = h.cursors.keep i w) :
    Moves k t h h' r st (.keep i w) x := by
  rw [Cache.keep] at hcur
  cases hb : r.batches k with
  | false => exact .aside hb (hcur ▸ sameSlot_of_leased hheld hbj hj hb)
  | true =>
    refine .keep hb hlease hmark (by rw [hcur]; rfl) fun m => ?_
    rw [hcur, Cache.slot_setSlot (Cache.held_inside hheld)]

theorem moves_of_release (hheld : (h.cursors.slot i).holder = some t) (hbj : r.batches j)
    (hj : ∀ m, h.cursors.mapped.find? m = some i → m = j) (hlease : st.lease = some i)
    (hcursor : st.cursor = st.mark) (hwater : (h.cursors.slot i).watermark = st.cursor)
    (hcur : h'.cursors = h.cursors.release i) : Moves k t h h' r st (.release i) x := by
  rw [Cache.release] at hcur
  cases hb : r.batches k with
  | false => exact .aside hb (hcur ▸ sameSlot_of_leased hheld hbj hj hb)
  | true =>
    refine .release hb hlease hcursor hwater (by rw [hcur]; rfl) fun m => ?_
    rw [hcur, Cache.slot_setSlot (Cache.held_inside hheld)]

theorem moves_of_reset {b : Cursor.Answer} (hc : h.cursors.Sound)
    (hcall : h.cursors.call t (.reset j) = some (b, h'.cursors)) :
    Moves k t h h' (.resetBatching j) st (.reset j) x := by
  by_cases hjk : j = k
  · subst hjk
    obtain ⟨hmap, -, hslot⟩ := Cache.reset_spec (hc.inside j) hcall
    exact .reset rfl (by rw [hmap]) fun i hi => by rw [hslot, if_pos hi]
  · exact .aside rfl (sameSlot_of_reset hc hcall (Ne.symm hjk))

theorem moves_of_evict {b : Cursor.Answer} (hc : h.cursors.Sound)
    (hcall : h.cursors.call t (.evict j) = some (b, h'.cursors)) :
    Moves k t h h' (.unsubscribe j) st (.evict j) x := by
  by_cases hjk : j = k
  · subst hjk
    obtain ⟨hmap, -, -⟩ := Cache.evict_spec (hc.inside j) hcall
    exact .evict rfl (by simp [hmap])
  · exact .aside rfl (sameSlot_of_evict hc hcall (Ne.symm hjk))

theorem moves_of_accept {o : Offer} {row : Row} {rest : List Row} (hcur : h'.cursors = h.cursors)
    (hlisten : st.Listens r) (hscanned : ∀ w, st.mark = some w → st.rows <+: h.ledger.above w)
    (ha : st.ahead = row :: rest) (ho : o.IsOf row) :
    Moves k t h h' r st (.offer o) (.ok true) := by
  cases hb : r.batches k with
  | false => exact .aside hb (sameSlot_of_eq hcur)
  | true =>
    obtain ⟨hl, hc, hm⟩ := hlisten.ready k hb
    obtain ⟨i, hl⟩ := Option.isSome_iff_exists.1 hl
    obtain ⟨v, hc⟩ := Option.isSome_iff_exists.1 hc
    obtain ⟨w, hm⟩ := Option.isSome_iff_exists.1 hm
    obtain ⟨hrows, ⟨more, hmore⟩, hnext⟩ := offers_first hm (hscanned w hm) ha
    exact .accept hb (sameSlot_of_eq hcur) hl hc hm hrows hmore ho hnext

/-- A listener that gives up leaves its pass where it is, or makes it fall back. -/
theorem moves_of_failed {f : Failure} (hcur : h'.cursors = h.cursors) (hlisten : st.Listens r)
    (hnext : st.next ⟨e, a⟩ = st.failed f)
    (hquiet : ∀ n, (Event.ask t n r ⟨e, a⟩).accepts k = none ∧
      (Event.ask t n r ⟨e, a⟩).keeps k = none)
    (hup : ∀ n, (Event.ask t n r ⟨e, a⟩).unwinds k = (!f.isException && r.batches k)) :
    Moves k t h h' r st e a := by
  cases hb : r.batches k with
  | false => exact .aside hb (sameSlot_of_eq hcur)
  | true =>
    cases hf : f.isException with
    | true =>
      rw [Stage.failed_exception hf] at hnext
      refine .still hb (sameSlot_of_eq hcur) ?_ fun n =>
        ⟨(hquiet n).1, (hquiet n).2, by simp [hup, hf]⟩
      rw [hnext]
      exact ⟨rfl, rfl, rfl, rfl⟩
    | false =>
      obtain ⟨hl, hc, -⟩ := hlisten.ready k hb
      obtain ⟨i, hl⟩ := Option.isSome_iff_exists.1 hl
      obtain ⟨v, hv⟩ := Option.isSome_iff_exists.1 hc
      refine .unwind hb (sameSlot_of_eq hcur) hl (fun n => by simp [hup, hb, hf]) hv ?_
      rw [hnext, Stage.failed_object hf, hv]

end

theorem moves_of_ask (hs : s.Sound) (hst : s.stack t = ⟨n, r, past, .perform e next⟩ :: below)
    (hg : Granted t s.host h' e a) :
    Moves k t s.host h' r (Frame.mk n r past (.perform e next)).stage e a := by
  have hf := hs.frames t _ (by rw [hst]; exact List.mem_cons_self)
  have hperm := hf.follows.1
  have hleased := hf.leased
  have hactive := hf.active
  have hscanned := hf.scanned
  clear hf
  generalize (Frame.mk n r past (.perform e next)).stage = st at *
  cases e with
  | begin =>
    rcases a with f | _ <;> exact moves_still hg.1 ⟨rfl, rfl, rfl, rfl⟩ fun _ => ⟨rfl, rfl, rfl⟩
  | close => exact moves_still hg.1 ⟨rfl, rfl, rfl, rfl⟩ fun _ => ⟨rfl, rfl, rfl⟩
  | commit =>
    rcases a with f | _
    · rcases hperm.2.1 with hcm | ⟨hc, hr⟩
      · exact moves_still hg.1 ⟨rfl, rfl, hcm, rfl⟩ fun _ => ⟨rfl, rfl, rfl⟩
      · cases hb : r.batches k with
        | false => exact .aside hb (sameSlot_of_eq hg.1)
        | true => exact .undo hb (sameSlot_of_eq hg.1) hc hr
    · exact moves_still hg.1 ⟨rfl, rfl, rfl, rfl⟩ fun _ => ⟨rfl, rfl, rfl⟩
  | call c =>
    obtain ⟨hp, hmay, hreads⟩ := hperm
    obtain ⟨hcur, -, l, l', hst, -, ha⟩ := hg
    obtain ⟨l₁, hl₁, hev⟩ := hactive hp
    obtain rfl : l₁ = l := by simpa [hl₁] using hst
    exact moves_of_call hcur hmay hreads hev ha
  | acquire j =>
    obtain ⟨-, hlease, hrows, hb⟩ := hperm
    exact moves_of_acquire hs.cursors hlease hrows hb hg.2
  | keep i w =>
    obtain ⟨-, hlease, hmark⟩ := hperm
    obtain ⟨hheld, -, j, hbj, hj⟩ := hleased i hlease
    exact moves_of_keep hheld hbj hj hlease hmark hg.2
  | release i =>
    obtain ⟨-, hlease, hcursor⟩ := hperm
    obtain ⟨hheld, hwater, j, hbj, hj⟩ := hleased i hlease
    exact moves_of_release hheld hbj hj hlease hcursor hwater hg.2
  | reset j =>
    obtain ⟨-, b, hcall⟩ := hg
    have hr : r = .resetBatching j := hperm.2
    exact hr ▸ moves_of_reset hs.cursors hcall
  | evict j =>
    obtain ⟨-, b, hcall⟩ := hg
    have hr : r = .unsubscribe j := hperm.2
    exact hr ▸ moves_of_evict hs.cursors hcall
  | peek j => exact moves_still hg.2.1 ⟨rfl, rfl, rfl, rfl⟩ fun _ => ⟨rfl, rfl, rfl⟩
  | hasCapacity =>
    rcases a with f | _
    · exact moves_of_failed hg.2 hperm rfl (fun _ => ⟨rfl, rfl⟩) fun _ => rfl
    · exact moves_still hg.2 ⟨rfl, rfl, rfl, rfl⟩ fun _ => ⟨rfl, rfl, rfl⟩
  | offer o =>
    rcases a with f | _ | _
    · exact moves_of_failed hg.2 hperm.1 rfl (fun _ => ⟨rfl, rfl⟩) fun _ => rfl
    · exact moves_still hg.2 ⟨rfl, rfl, rfl, rfl⟩ fun _ => ⟨rfl, rfl, rfl⟩
    · obtain ⟨hlisten, row, rest, ha, ho⟩ := hperm
      exact moves_of_accept hg.2 hlisten hscanned ha ho
  | _ => exact moves_still hg.2 ⟨rfl, rfl, rfl, rfl⟩ fun _ => ⟨rfl, rfl, rfl⟩

end DurableTopic.Store

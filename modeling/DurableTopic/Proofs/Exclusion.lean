import DurableTopic.Proofs.Cursors
import DurableTopic.Proofs.Threads
/-! No slot has two leases, and what is given up is not taken back, whatever threads do. -/
namespace DurableTopic.Cursor

/-- A slot that is given up, or will be when its lease is released. -/
def Slot.GivenUp (s : Slot) : Prop := s.retired ∨ s.pendingEvict

/-- The cache after a step. -/
def Progress.cache (c : Cache) : Progress → Cache
  | .next c _ | .finished c _ => c
  | .blocked => c

/-- What a step of a call does unless it has to wait. -/
inductive Cache.Stepped (c : Cache) (t : Thread) : Call → Progress → Prop where
  | found {k : SubscriberKey} {i : Nat} (h : c.mapped.find? k = some i) :
      Stepped c t (.acquire k) (.next c (.acquireSlot k i))
  | made {k : SubscriberKey} (h : c.mapped.find? k = none) :
      Stepped c t (.acquire k) (.next
        { slots := c.slots ++ [{}], mapped := c.mapped.put k c.slots.length }
        (.acquireSlot k c.slots.length))
  | late {k : SubscriberKey} {i : Nat} (hfree : (c.slot i).holder = none)
      (hr : (c.slot i).retired) : Stepped c t (.acquireSlot k i) (.next c (.acquireUnmap k i))
  | leased {k : SubscriberKey} {i : Nat} (hfree : (c.slot i).holder = none)
      (hr : (c.slot i).retired = false) :
      Stepped c t (.acquireSlot k i) (.finished
        (c.setSlot i { c.slot i with holder := some t }) (.leased i (c.slot i).watermark))
  | again {k : SubscriberKey} {i : Nat} :
      Stepped c t (.acquireUnmap k i) (.next (c.unmap k i) (.acquire k))
  | unknown {p : Call} {a : Answer} {k : SubscriberKey} (h : c.mapped.find? k = none)
      (hp : p = .reset k ∧ a = .done ∨ p = .evict k ∧ a = .done ∨ p = .peek k ∧ a = .shown none) :
      Stepped c t p (.finished c a)
  | known {p p' : Call} {k : SubscriberKey} {i : Nat} (h : c.mapped.find? k = some i)
      (hp : p = .reset k ∧ p' = .resetSlot i ∨ p = .evict k ∧ p' = .evictSlot k i ∨
        p = .peek k ∧ p' = .peekSlot i) : Stepped c t p (.next c p')
  | forgotten {i : Nat} (hown : ∀ u, (c.slot i).holder = some u → u = t) :
      Stepped c t (.resetSlot i) (.finished (c.setSlot i (c.slot i).forgotten) .done)
  | evicted {k : SubscriberKey} {i : Nat} (hown : ∀ u, (c.slot i).holder = some u → u = t) :
      Stepped c t (.evictSlot k i) (.next (c.setSlot i (c.slot i).evicted) (.evictUnmap k i))
  | unmapped {k : SubscriberKey} {i : Nat} :
      Stepped c t (.evictUnmap k i) (.finished (c.unmap k i) .done)
  | shown {i : Nat} {w : Option Watermark} (hw : (c.slot i).holder = none ∧
        w = (c.slot i).watermark ∨ w = (c.slot i).shownToHolder) :
      Stepped c t (.peekSlot i) (.finished c (.shown w))

/-- What an event does to a slot. -/
inductive Event.Change (i : Nat) : Event → Slot → Slot → Prop where
  | none {e : Event} {x : Slot} (h : e.slot ≠ some i) : Change i e x x
  | lease {t : Thread} {r : Call} {k : SubscriberKey} {x : Slot} (hfree : x.holder = .none)
      (hr : x.retired = false) :
      Change i (.answered t r (.acquireSlot k i) (.leased i x.watermark)) x
        { x with holder := some t }
  | forget {t : Thread} {r : Call} {x : Slot} :
      Change i (.answered t r (.resetSlot i) .done) x x.forgotten
  | evict {t : Thread} {r : Call} {k : SubscriberKey} {x : Slot} :
      Change i (.moved t r (.evictSlot k i)) x x.evicted
  | keep {t : Thread} {g : Grant} {w : Watermark} {x : Slot} (hg : g.slot = i) :
      Change i (.stored t g w) x { x with watermark := some w }
  | release {g : Grant} {x : Slot} (hg : g.slot = i) : Change i (.released g) x x.released

/-- What holds of a cache whatever its threads do. A slot that is not given up is the one that its
subscriber is mapped to. -/
structure Cache.Orderly (c : Cache) (keys : List SubscriberKey) : Prop where
  made : keys.length = c.slots.length
  mapped : ∀ k i, c.mapped.find? k = some i → keys[i]? = some k
  current : ∀ k i, keys[i]? = some k → ¬ (c.slot i).GivenUp → c.mapped.find? k = some i
  retired : ∀ i, (c.slot i).retired → (c.slot i).holder = none ∧ (c.slot i).watermark = none
  quiet : ∀ i, (c.slot i).holder = none →
    (c.slot i).pendingReset = false ∧ (c.slot i).pendingEvict = false

/-- Where a call may stand: at a slot of its own subscriber, and it unmaps only what is given up. -/
inductive Pending.Fits (c : Cache) (keys : List SubscriberKey) : Pending → Prop where
  | acquire {k : SubscriberKey} : Fits c keys ⟨.acquire k, .acquire k⟩
  | acquireSlot {k : SubscriberKey} {i : Nat} (h : keys[i]? = some k) :
      Fits c keys ⟨.acquire k, .acquireSlot k i⟩
  | acquireUnmap {k : SubscriberKey} {i : Nat} (h : keys[i]? = some k)
      (hg : (c.slot i).GivenUp) : Fits c keys ⟨.acquire k, .acquireUnmap k i⟩
  | reset {k : SubscriberKey} : Fits c keys ⟨.reset k, .reset k⟩
  | resetSlot {k : SubscriberKey} {i : Nat} (h : keys[i]? = some k) :
      Fits c keys ⟨.reset k, .resetSlot i⟩
  | evict {k : SubscriberKey} : Fits c keys ⟨.evict k, .evict k⟩
  | evictSlot {k : SubscriberKey} {i : Nat} (h : keys[i]? = some k) :
      Fits c keys ⟨.evict k, .evictSlot k i⟩
  | evictUnmap {k : SubscriberKey} {i : Nat} (h : keys[i]? = some k) (hg : (c.slot i).GivenUp) :
      Fits c keys ⟨.evict k, .evictUnmap k i⟩
  | peek {k : SubscriberKey} : Fits c keys ⟨.peek k, .peek k⟩
  | peekSlot {k : SubscriberKey} {i : Nat} (h : keys[i]? = some k) :
      Fits c keys ⟨.peek k, .peekSlot i⟩

/-- What holds of a cache and its threads. -/
structure Threads.Sound (s : Threads) : Prop where
  orderly : s.cache.Orderly s.keys
  fits : ∀ t p, s.calls t = some p → p.Fits s.cache s.keys
  held : ∀ g ∈ s.grants, (s.cache.slot g.slot).holder = some g.thread
  keyed : ∀ g ∈ s.grants, s.keys[g.slot]? = some g.key
  apart : ∀ g ∈ s.grants, ∀ h ∈ s.grants, g.slot = h.slot → g = h
  numbered : ∀ g ∈ s.grants, g.number < s.count

variable {c c' : Cache} {t u : Thread} {p p' r : Call} {q : Progress} {k : SubscriberKey}
  {i n : Nat} {a : Answer} {keys keys' : List SubscriberKey} {w : Watermark} {s s' s'' : Threads}
  {tr tr' : List Event} {e : Event} {x y : Slot} {g : Grant}

namespace Slot

theorem holder_forgotten : x.forgotten.holder = x.holder := by
  unfold forgotten
  split <;> rfl

theorem holder_evicted : x.evicted.holder = x.holder := by
  unfold evicted
  split <;> rfl

theorem givenUp_evicted : x.evicted.GivenUp := by
  unfold evicted
  split
  · exact Or.inl rfl
  · exact Or.inr rfl

end Slot

theorem Event.Change.givenUp (h : e.Change i x y) (hx : x.GivenUp) : y.GivenUp := by
  cases h with
  | none => exact hx
  | lease => exact hx
  | forget =>
    unfold Slot.forgotten
    split <;> exact hx
  | evict => exact Slot.givenUp_evicted
  | keep => exact hx
  | release => exact Or.inl (by simpa [Slot.released, Slot.GivenUp] using hx)

namespace Cache

theorem stepped (h : c.step t p = q) (hq : q ≠ .blocked) : c.Stepped t p q := by
  subst h
  cases p with
  | acquire k =>
    cases hm : c.mapped.find? k with
    | some i => simpa [step, findOrMake, hm] using Stepped.found hm
    | none => simpa [step, findOrMake, hm] using Stepped.made hm
  | acquireSlot k i =>
    cases hh : (c.slot i).holder with
    | some u => simp [step, visit, hh] at hq
    | none =>
      cases hr : (c.slot i).retired with
      | true => simpa [step, visit, hh, hr] using Stepped.late hh hr
      | false => simpa [step, visit, hh, hr] using Stepped.leased hh hr
  | acquireUnmap k i => exact .again
  | reset k =>
    cases hm : c.mapped.find? k with
    | some i => simpa [step, look, hm] using Stepped.known hm (Or.inl ⟨rfl, rfl⟩)
    | none => simpa [step, look, hm] using Stepped.unknown hm (Or.inl ⟨rfl, rfl⟩)
  | evict k =>
    cases hm : c.mapped.find? k with
    | some i => simpa [step, look, hm] using Stepped.known hm (Or.inr (Or.inl ⟨rfl, rfl⟩))
    | none => simpa [step, look, hm] using Stepped.unknown hm (Or.inr (Or.inl ⟨rfl, rfl⟩))
  | peek k =>
    cases hm : c.mapped.find? k with
    | some i => simpa [step, look, hm] using Stepped.known hm (Or.inr (Or.inr ⟨rfl, rfl⟩))
    | none => simpa [step, look, hm] using Stepped.unknown hm (Or.inr (Or.inr ⟨rfl, rfl⟩))
  | resetSlot i =>
    cases hh : (c.slot i).holder with
    | none =>
      simpa [step, visit, hh, Slot.forgotten] using
        Stepped.forgotten (c := c) (t := t) (i := i) (by simp [hh])
    | some u =>
      by_cases hu : u = t
      · simpa [step, visit, hh, hu, Slot.forgotten] using
          Stepped.forgotten (c := c) (t := t) (i := i) (by simp [hh, hu])
      · simp [step, visit, hh, hu] at hq
  | evictSlot k i =>
    cases hh : (c.slot i).holder with
    | none =>
      simpa [step, visit, hh, Slot.evicted] using
        Stepped.evicted (c := c) (t := t) (k := k) (i := i) (by simp [hh])
    | some u =>
      by_cases hu : u = t
      · simpa [step, visit, hh, hu, Slot.evicted] using
          Stepped.evicted (c := c) (t := t) (k := k) (i := i) (by simp [hh, hu])
      · simp [step, visit, hh, hu] at hq
  | evictUnmap k i => exact .unmapped
  | peekSlot i =>
    cases hh : (c.slot i).holder with
    | none =>
      simpa [step, visit, hh] using
        Stepped.shown (c := c) (t := t) (i := i) (Or.inl ⟨hh, rfl⟩)
    | some u =>
      by_cases hu : u = t
      · simpa [step, visit, hh, hu] using
          Stepped.shown (c := c) (t := t) (i := i) (Or.inr rfl)
      · simp [step, visit, hh, hu] at hq

theorem slot_made {m : Assoc SubscriberKey Nat} :
    ({ slots := c.slots ++ [({} : Slot)], mapped := m } : Cache).slot i = c.slot i := by
  rcases Nat.lt_trichotomy i c.slots.length with hi | rfl | hi
  · simp [slot, List.getElem?_append_left hi]
  · simp [slot]
  · rw [slot_outside (Nat.le_of_lt hi)]
    exact slot_outside (by simpa using Nat.succ_le_of_lt hi)

theorem orderly_empty : ({} : Cache).Orderly [] where
  made := rfl
  mapped := by simp
  current := by simp
  retired := by simp [slot]
  quiet := by simp [slot]

theorem inside_of_key (h : c.Orderly keys) (hk : keys[i]? = some k) : i < c.slots.length :=
  h.made ▸ (List.getElem?_eq_some_iff.1 hk).1

theorem not_retired_of_held (h : c.Orderly keys) (hh : (c.slot i).holder = some t) :
    (c.slot i).retired = false := by
  refine Bool.eq_false_iff.2 fun hr => ?_
  simp [(h.retired i hr).1] at hh

/-- A slot may change as long as it stays given up if it is, and nothing is left in it then. -/
theorem orderly_setSlot (h : c.Orderly keys) (hi : i < c.slots.length)
    (hup : (c.slot i).GivenUp → x.GivenUp)
    (hret : x.retired → x.holder = none ∧ x.watermark = none)
    (hfree : x.holder = none → x.pendingReset = false ∧ x.pendingEvict = false) :
    (c.setSlot i x).Orderly keys := by
  refine ⟨by simpa using h.made, h.mapped, fun k n hk hn => ?_, fun n hn => ?_, fun n hn => ?_⟩
  · refine h.current k n hk fun hold => hn ?_
    rw [slot_setSlot hi]
    split
    · rename_i hni
      exact hup (hni ▸ hold)
    · exact hold
  · rw [slot_setSlot hi] at hn ⊢
    split
    · rename_i hni
      rw [if_pos hni] at hn
      exact hret hn
    · rename_i hni
      rw [if_neg hni] at hn
      exact h.retired n hn
  · rw [slot_setSlot hi] at hn ⊢
    split
    · rename_i hni
      rw [if_pos hni] at hn
      exact hfree hn
    · rename_i hni
      rw [if_neg hni] at hn
      exact h.quiet n hn

theorem orderly_unmap (h : c.Orderly keys) (hg : (c.slot i).GivenUp) :
    (c.unmap k i).Orderly keys := by
  by_cases hm : c.mapped.find? k = some i
  · have hfind := fun j => find?_unmap (j := j) hm
    refine ⟨by simpa using h.made, fun j n hj => ?_, fun j n hj hn => ?_, ?_, ?_⟩
    · rw [hfind] at hj
      split at hj
      · cases hj
      · exact h.mapped j n hj
    · have hcur := h.current j n hj (by simpa using hn)
      rw [hfind, if_neg]
      · exact hcur
      · rintro rfl
        obtain rfl := Option.some.inj (hm.symm.trans hcur)
        simp [hg] at hn
    · simpa using h.retired
    · simpa using h.quiet
  · rwa [unmap, if_neg hm]

theorem orderly_made (h : c.Orderly keys) (hn : c.mapped.find? k = none) :
    Orderly { slots := c.slots ++ [{}], mapped := c.mapped.put k c.slots.length }
      (keys ++ [k]) := by
  have hlast : (keys ++ [k])[c.slots.length]? = some k := by simp [← h.made]
  refine ⟨by simp [h.made], fun j i hj => ?_, fun j i hj hi => ?_, ?_, ?_⟩
  · rw [Assoc.find?_put] at hj
    split at hj
    · rename_i hjk
      cases hj
      rw [hjk, hlast]
    · have hkey := h.mapped j i hj
      rwa [List.getElem?_append_left (List.getElem?_eq_some_iff.1 hkey).1]
  · rw [slot_made] at hi
    rw [Assoc.find?_put]
    by_cases hlt : i < keys.length
    · rw [List.getElem?_append_left hlt] at hj
      have hcur := h.current j i hj hi
      rw [if_neg fun hjk => by simp [hjk, hn] at hcur]
      exact hcur
    · have hlen := (List.getElem?_eq_some_iff.1 hj).1
      simp only [List.length_append, List.length_singleton] at hlen
      obtain rfl : i = c.slots.length := by have := h.made; omega
      rw [hlast] at hj
      rw [if_pos (Option.some.inj hj).symm]
  · simpa only [slot_made] using h.retired
  · simpa only [slot_made] using h.quiet

theorem orderly_leased (h : c.Orderly keys) (hi : i < c.slots.length)
    (hr : (c.slot i).retired = false) :
    (c.setSlot i { c.slot i with holder := some t }).Orderly keys :=
  orderly_setSlot h hi id (by simp [hr]) (by simp)

theorem orderly_forgotten (h : c.Orderly keys) (hi : i < c.slots.length) :
    (c.setSlot i (c.slot i).forgotten).Orderly keys := by
  have hret := h.retired i
  have hq := h.quiet i
  refine orderly_setSlot h hi ?_ ?_ ?_ <;> unfold Slot.forgotten <;> split <;>
    simp_all [Slot.GivenUp]

theorem orderly_evicted (h : c.Orderly keys) (hi : i < c.slots.length) :
    (c.setSlot i (c.slot i).evicted).Orderly keys := by
  have hret := h.retired i
  have hq := h.quiet i
  refine orderly_setSlot h hi (fun _ => Slot.givenUp_evicted) ?_ ?_ <;> unfold Slot.evicted <;>
    split <;> simp_all

theorem orderly_keep (h : c.Orderly keys) (hh : (c.slot i).holder = some t) :
    (c.keep i w).Orderly keys :=
  orderly_setSlot h (held_inside hh) id (by simp [not_retired_of_held h hh]) (by simp [hh])

theorem orderly_release (h : c.Orderly keys) (hi : i < c.slots.length) :
    (c.release i).Orderly keys := by
  have hret := h.retired i
  refine orderly_setSlot h hi ?_ ?_ ?_ <;> simp_all [Slot.GivenUp, Slot.released]
  grind

theorem orderly_stepped (h : c.Orderly keys) (hf : Pending.Fits c keys ⟨r, p⟩)
    (hs : c.Stepped t p q) : (q.cache c).Orderly (keys ++ p.makes c) := by
  cases hs with
  | found hm => simpa [Progress.cache, Call.makes, hm] using h
  | made hm => simpa [Progress.cache, Call.makes, hm] using orderly_made h hm
  | late => simpa [Progress.cache, Call.makes] using h
  | leased _ hr =>
    cases hf with
    | acquireSlot hk =>
      simpa [Progress.cache, Call.makes] using orderly_leased h (inside_of_key h hk) hr
  | again =>
    cases hf with
    | acquireUnmap _ hg => simpa [Progress.cache, Call.makes] using orderly_unmap h hg
  | unknown _ hp =>
    rcases hp with ⟨rfl, -⟩ | ⟨rfl, -⟩ | ⟨rfl, -⟩ <;> simpa [Progress.cache, Call.makes] using h
  | known _ hp =>
    rcases hp with ⟨rfl, -⟩ | ⟨rfl, -⟩ | ⟨rfl, -⟩ <;> simpa [Progress.cache, Call.makes] using h
  | forgotten =>
    cases hf with
    | resetSlot hk =>
      simpa [Progress.cache, Call.makes] using orderly_forgotten h (inside_of_key h hk)
  | evicted =>
    cases hf with
    | evictSlot hk =>
      simpa [Progress.cache, Call.makes] using orderly_evicted h (inside_of_key h hk)
  | unmapped =>
    cases hf with
    | evictUnmap _ hg => simpa [Progress.cache, Call.makes] using orderly_unmap h hg
  | shown => simpa [Progress.cache, Call.makes] using h

theorem live_of_peeked (h : c.Orderly keys) (hw : (c.slot i).holder = none ∧
      some w = (c.slot i).watermark ∨ some w = (c.slot i).shownToHolder) :
    (c.slot i).watermark = some w ∧ ¬ (c.slot i).GivenUp ∧ (c.slot i).pendingReset = false := by
  have hret := h.retired i
  have hq := h.quiet i
  rcases hw with ⟨hfree, hw⟩ | hw
  · cases hr : (c.slot i).retired with
    | true => simp [(hret hr).2] at hw
    | false => exact ⟨hw.symm, by simp [Slot.GivenUp, hr, hq hfree], (hq hfree).1⟩
  · unfold Slot.shownToHolder at hw
    split at hw
    · cases hw
    · rename_i hdue
      simp only [Bool.or_eq_true, not_or, Bool.not_eq_true] at hdue
      cases hr : (c.slot i).retired with
      | true => simp [(hret hr).2] at hw
      | false => exact ⟨hw.symm, by simp [Slot.GivenUp, hr, hdue.2], hdue.1⟩

/-- What every call keeps to stays so as long as no slot is taken back. -/
theorem fits_carry {p : Pending} (h : p.Fits c keys)
    (hk : ∀ (i : Nat) (k : SubscriberKey), keys[i]? = some k → keys'[i]? = some k)
    (hg : ∀ i, (c.slot i).GivenUp → (c'.slot i).GivenUp) : p.Fits c' keys' := by
  cases h with
  | acquire => exact .acquire
  | acquireSlot h => exact .acquireSlot (hk _ _ h)
  | acquireUnmap h hup => exact .acquireUnmap (hk _ _ h) (hg _ hup)
  | reset => exact .reset
  | resetSlot h => exact .resetSlot (hk _ _ h)
  | evict => exact .evict
  | evictSlot h => exact .evictSlot (hk _ _ h)
  | evictUnmap h hup => exact .evictUnmap (hk _ _ h) (hg _ hup)
  | peek => exact .peek
  | peekSlot h => exact .peekSlot (hk _ _ h)

theorem fits_stepped (h : c.Orderly keys) (hf : Pending.Fits c keys ⟨r, p⟩)
    (hs : c.Stepped t p (.next c' p')) : Pending.Fits c' (keys ++ p.makes c) ⟨r, p'⟩ := by
  cases hs with
  | found hm =>
    cases hf with
    | acquire => exact .acquireSlot (by simpa [Call.makes, hm] using h.mapped _ _ hm)
  | made hm =>
    cases hf with
    | acquire => exact .acquireSlot (by simp [Call.makes, hm, ← h.made])
  | late _ hr =>
    cases hf with
    | acquireSlot hk => exact .acquireUnmap (by simpa [Call.makes] using hk) (Or.inl hr)
  | again =>
    cases hf with
    | acquireUnmap => exact .acquire
  | known hm hp =>
    have hk := h.mapped _ _ hm
    rcases hp with ⟨rfl, rfl⟩ | ⟨rfl, rfl⟩ | ⟨rfl, rfl⟩ <;> cases hf
    · exact .resetSlot (by simpa [Call.makes] using hk)
    · exact .evictSlot (by simpa [Call.makes] using hk)
    · exact .peekSlot (by simpa [Call.makes] using hk)
  | evicted =>
    cases hf with
    | evictSlot hk =>
      refine .evictUnmap (by simpa [Call.makes] using hk) ?_
      rw [slot_setSlot (inside_of_key h hk), if_pos rfl]
      exact Slot.givenUp_evicted

end Cache

namespace Threads

theorem change_setSlot (hi : n < c.slots.length) (he : e.slot = some n)
    (hc : e.Change n (c.slot n) x) : e.Change i (c.slot i) ((c.setSlot n x).slot i) := by
  rw [Cache.slot_setSlot hi]
  split
  · rename_i hin
    exact hin ▸ hc
  · rename_i hin
    exact .none (by simpa [he] using Ne.symm hin)

theorem change_move (h : s.Sound) (hp : s.calls t = some ⟨r, p⟩)
    (hs : s.cache.Stepped t p (.next c p')) :
    (Event.moved t r p).Change i (s.cache.slot i) (c.slot i) := by
  have hf := h.fits t _ hp
  cases hs with
  | found => exact .none (by simp [Event.slot])
  | made =>
    rw [Cache.slot_made]
    exact .none (by simp [Event.slot])
  | late => exact .none (by simp [Event.slot])
  | again =>
    rw [Cache.slot_unmap]
    exact .none (by simp [Event.slot])
  | known _ hp =>
    rcases hp with ⟨rfl, -⟩ | ⟨rfl, -⟩ | ⟨rfl, -⟩ <;> exact .none (by simp [Event.slot])
  | evicted =>
    cases hf with
    | evictSlot hk => exact change_setSlot (Cache.inside_of_key h.orderly hk) rfl .evict

theorem change_answer (h : s.Sound) (hp : s.calls t = some ⟨r, p⟩)
    (hs : s.cache.Stepped t p (.finished c a)) :
    (Event.answered t r p a).Change i (s.cache.slot i) (c.slot i) := by
  have hf := h.fits t _ hp
  cases hs with
  | leased hfree hr =>
    cases hf with
    | acquireSlot hk =>
      exact change_setSlot (Cache.inside_of_key h.orderly hk) rfl (.lease hfree hr)
  | unknown _ hp =>
    rcases hp with ⟨rfl, rfl⟩ | ⟨rfl, rfl⟩ | ⟨rfl, rfl⟩ <;> exact .none (by simp [Event.slot])
  | forgotten =>
    cases hf with
    | resetSlot hk => exact change_setSlot (Cache.inside_of_key h.orderly hk) rfl .forget
  | unmapped =>
    rw [Cache.slot_unmap]
    exact .none (by simp [Event.slot])
  | shown => exact .none (by simp [Event.slot])

@[simp] theorem grant_done : s.grant t r .done = s := by
  cases r <;> rfl

@[simp] theorem grant_shown {w : Option Watermark} : s.grant t r (.shown w) = s := by
  cases r <;> rfl

@[simp] theorem keys_setCall {p : Option Pending} : (s.setCall t p).keys = s.keys := rfl

@[simp] theorem grants_setCall {p : Option Pending} : (s.setCall t p).grants = s.grants := rfl

@[simp] theorem count_setCall {p : Option Pending} : (s.setCall t p).count = s.count := rfl

@[simp] theorem keys_grant : (s.grant t r a).keys = s.keys := by
  unfold grant
  split <;> rfl

theorem count_grant : s.count ≤ (s.grant t r a).count := by
  unfold grant
  split
  · exact Nat.le_succ _
  · exact Nat.le_refl _

@[simp] theorem calls_grant : (s.grant t r a).calls = s.calls := by
  unfold grant
  split <;> rfl

/-- Whatever happens, a slot changes in one of a few ways. -/
theorem change (h : s.Sound) (he : Step s e s') (i : Nat) :
    e.Change i (s.cache.slot i) (s'.cache.slot i) := by
  cases he with
  | begin => exact .none (by simp [Event.slot])
  | move hp hc => exact change_move h hp (Cache.stepped hc (by simp))
  | answer hp hc => exact change_answer h hp (Cache.stepped hc (by simp))
  | store _ hg => exact change_setSlot (Cache.held_inside (h.held _ hg)) rfl (.keep rfl)
  | look => exact .none (by simp [Event.slot])
  | release _ hg => exact change_setSlot (Cache.held_inside (h.held _ hg)) rfl (.release rfl)

theorem givenUp_step (h : s.Sound) (he : Step s e s') (hi : (s.cache.slot i).GivenUp) :
    (s'.cache.slot i).GivenUp :=
  (change h he i).givenUp hi

theorem key_step (he : Step s e s') (hk : s.keys[i]? = some k) : s'.keys[i]? = some k := by
  cases he with
  | move => simp [List.getElem?_append_left (List.getElem?_eq_some_iff.1 hk).1, hk]
  | answer => rwa [keys_grant]
  | _ => exact hk

theorem orderly_step (h : s.Sound) (he : Step s e s') : s'.cache.Orderly s'.keys := by
  cases he with
  | begin => exact h.orderly
  | move hp hc =>
    exact Cache.orderly_stepped h.orderly (h.fits _ _ hp) (Cache.stepped hc (by simp))
  | @answer _ _ p _ _ hp hc =>
    have hs := Cache.stepped hc (by simp)
    have hnone : p.makes s.cache = [] := by
      cases hs with
      | unknown _ hp => rcases hp with ⟨rfl, -⟩ | ⟨rfl, -⟩ | ⟨rfl, -⟩ <;> rfl
      | _ => rfl
    simpa [hnone, Progress.cache] using Cache.orderly_stepped h.orderly (h.fits _ _ hp) hs
  | store _ hg => exact Cache.orderly_keep h.orderly (h.held _ hg)
  | look => exact h.orderly
  | release _ hg => exact Cache.orderly_release h.orderly (Cache.held_inside (h.held _ hg))

theorem fits_begin (hr : r.isRequest) : Pending.Fits c keys ⟨r, r⟩ := by
  cases r with
  | acquire => exact .acquire
  | reset => exact .reset
  | evict => exact .evict
  | peek => exact .peek
  | _ => cases hr

theorem fits_step (h : s.Sound) (he : Step s e s') {p : Pending} (hp : s'.calls u = some p) :
    p.Fits s'.cache s'.keys := by
  have carry : ∀ {p : Pending}, s.calls u = some p → p.Fits s'.cache s'.keys := fun hold =>
    Cache.fits_carry (h.fits u _ hold) (fun _ _ => key_step he) fun _ => givenUp_step h he
  cases he with
  | @begin t r _ hr =>
    by_cases hu : u = t
    · simp only [setCall, hu, if_true, Option.some.injEq] at hp
      exact hp ▸ fits_begin hr
    · exact carry (by simpa [setCall, hu] using hp)
  | @move t r q q' c hq hc =>
    by_cases hu : u = t
    · simp only [setCall, hu, if_true, Option.some.injEq] at hp
      exact hp ▸ Cache.fits_stepped h.orderly (h.fits _ _ hq) (Cache.stepped hc (by simp))
    · exact carry (by simpa [setCall, hu] using hp)
  | @answer t r q c a hq hc =>
    by_cases hu : u = t
    · simp [setCall, hu] at hp
    · exact carry (by simpa [setCall, hu] using hp)
  | store => exact carry hp
  | look => exact carry hp
  | release => exact carry hp

/-- A lease is given. -/
structure Given (s : Threads) (e : Event) (g : Grant) : Prop where
  number : g.number = s.count
  event : e = .answered g.thread (.acquire g.key) (.acquireSlot g.key g.slot)
    (.leased g.slot (s.cache.slot g.slot).watermark)
  free : (s.cache.slot g.slot).holder = none
  fresh : (s.cache.slot g.slot).retired = false
  key : s.keys[g.slot]? = some g.key

theorem given_step (h : s.Sound) (he : Step s e s') (hg : g ∈ s'.grants) :
    g ∈ s.grants ∨ s.Given e g ∧ s'.count = s.count + 1 := by
  cases he with
  | @answer t r p c a hp hc =>
    have hf := h.fits _ _ hp
    cases Cache.stepped hc (by simp) with
    | leased hfree hr =>
      cases hf with
      | acquireSlot hk =>
        rcases List.mem_cons.1 hg with rfl | hg
        · exact Or.inr ⟨⟨rfl, rfl, hfree, hr, hk⟩, rfl⟩
        · exact Or.inl hg
    | unknown _ hp =>
      rcases hp with ⟨rfl, rfl⟩ | ⟨rfl, rfl⟩ | ⟨rfl, rfl⟩ <;> exact Or.inl (by simpa using hg)
    | forgotten => exact Or.inl (by simpa using hg)
    | unmapped => exact Or.inl (by simpa using hg)
    | shown => exact Or.inl (by simpa using hg)
  | release => exact Or.inl (List.mem_filter.1 hg |>.1)
  | _ => exact Or.inl hg

theorem count_step (he : Step s e s') : s.count ≤ s'.count := by
  cases he with
  | @answer t r => exact count_grant (s := s.setCall t none)
  | _ => exact Nat.le_refl _

theorem held_step (h : s.Sound) (he : Step s e s') (hg : g ∈ s'.grants) :
    (s'.cache.slot g.slot).holder = some g.thread := by
  have hc := change h he g.slot
  rcases given_step h he hg with hold | ⟨hnew, -⟩
  · have hh := h.held g hold
    generalize s'.cache.slot g.slot = y at hc
    generalize s.cache.slot g.slot = x at hc hh
    cases hc with
    | none => exact hh
    | lease hfree => simp [hfree] at hh
    | forget => rwa [Slot.holder_forgotten]
    | evict => rwa [Slot.holder_evicted]
    | keep => exact hh
    | release hslot =>
      cases he with
      | release _ hg' =>
        obtain rfl := h.apart _ hg' _ hold hslot
        simp at hg
  · rw [hnew.event] at hc
    generalize (s.cache.slot g.slot).watermark = w at hc
    generalize s'.cache.slot g.slot = y at hc
    generalize s.cache.slot g.slot = x at hc
    cases hc with
    | none hne => exact absurd rfl hne
    | lease => rfl

theorem apart_step (h : s.Sound) (he : Step s e s') {g' : Grant} (hg : g ∈ s'.grants)
    (hg' : g' ∈ s'.grants) (hslot : g.slot = g'.slot) : g = g' := by
  rcases given_step h he hg with hold | ⟨hnew, -⟩ <;>
    rcases given_step h he hg' with hold' | ⟨hnew', -⟩
  · exact h.apart _ hold _ hold' hslot
  · simpa [hslot, hnew'.free] using h.held _ hold
  · simpa [← hslot, hnew.free] using h.held _ hold'
  · have hev := hnew.event.symm.trans hnew'.event
    have hn := hnew.number.trans hnew'.number.symm
    cases g
    cases g'
    simp_all

theorem sound_step (h : s.Sound) (he : Step s e s') : s'.Sound where
  orderly := orderly_step h he
  fits _ _ hp := fits_step h he hp
  held _ hg := held_step h he hg
  keyed g hg := by
    rcases given_step h he hg with hold | ⟨hnew, -⟩
    · exact key_step he (h.keyed g hold)
    · exact key_step he hnew.key
  apart _ hg _ hg' := apart_step h he hg hg'
  numbered g hg := by
    rcases given_step h he hg with hold | ⟨hnew, hcount⟩
    · exact Nat.lt_of_lt_of_le (h.numbered g hold) (count_step he)
    · rw [hnew.number, hcount]
      exact Nat.lt_succ_self _

theorem sound_empty : ({} : Threads).Sound where
  orderly := Cache.orderly_empty
  fits _ _ hp := by cases hp
  held _ hg := by cases hg
  keyed _ hg := by cases hg
  apart _ hg := by cases hg
  numbered _ hg := by cases hg

theorem sound_run (hr : Run s tr s') (h : s.Sound) : s'.Sound := by
  induction hr with
  | nil => exact h
  | snoc _ he ih => exact sound_step ih he

/-- A call in progress was in progress before, or is made now. -/
theorem request_step (he : Step s e s') {p : Pending} (hp : s'.calls u = some p) :
    (∃ q, s.calls u = some q ∧ q.request = p.request) ∨ e = .begun u p.request := by
  cases he with
  | @begin t r =>
    by_cases hu : u = t
    · subst hu
      obtain rfl : ⟨r, r⟩ = p := by simpa [setCall] using hp
      exact Or.inr rfl
    · exact Or.inl ⟨p, by simpa [setCall, hu] using hp, rfl⟩
  | @move t r q q' _ hq =>
    by_cases hu : u = t
    · subst hu
      obtain rfl : ⟨r, q'⟩ = p := by simpa [setCall] using hp
      exact Or.inl ⟨_, hq, rfl⟩
    · exact Or.inl ⟨p, by simpa [setCall, hu] using hp, rfl⟩
  | @answer t =>
    by_cases hu : u = t
    · simp [setCall, hu] at hp
    · exact Or.inl ⟨p, by simpa [setCall, hu] using hp, rfl⟩
  | _ => exact Or.inl ⟨p, hp, rfl⟩

theorem idle_of_answered (he : Step s (.answered t r p a) s') : s'.calls t = none := by
  cases he
  simp [setCall]

theorem count_run (hr : Run s tr s') : s.count ≤ s'.count := by
  induction hr with
  | nil => exact Nat.le_refl _
  | snoc _ he ih => exact Nat.le_trans ih (count_step he)

theorem not_givenUp_of_free (h : s.Sound) (hfree : (s.cache.slot i).holder = none)
    (hr : (s.cache.slot i).retired = false) : ¬ (s.cache.slot i).GivenUp := by
  simp [Slot.GivenUp, hr, (h.orderly.quiet i hfree).2]

/-- No lease is given on a slot that is given up. -/
theorem grants_givenUp (h : s.Sound) (he : Step s e s') (hi : (s.cache.slot g.slot).GivenUp)
    (hg : g ∈ s'.grants) : g ∈ s.grants := by
  rcases given_step h he hg with hold | ⟨hnew, -⟩
  · exact hold
  · exact absurd hi (not_givenUp_of_free h hnew.free hnew.fresh)

theorem grants_kept (he : Step s e s') (hg : g ∈ s.grants) :
    g ∈ s'.grants ∨ e = .released g := by
  cases he with
  | answer =>
    refine Or.inl ?_
    unfold grant
    split
    · exact List.mem_cons_of_mem _ hg
    · exact hg
  | @release g' =>
    by_cases hgg : g = g'
    · exact Or.inr (hgg ▸ rfl)
    · exact Or.inl (List.mem_filter.2 ⟨hg, decide_eq_true hgg⟩)
  | _ => exact Or.inl hg

theorem given_of_answer {w : Option Watermark}
    (he : Step s (.answered t (.acquire k) p (.leased i w)) s') :
    ⟨s.count, t, k, i⟩ ∈ s'.grants := by
  cases he
  exact List.mem_cons_self

theorem live_of_answer {w : Option Watermark} (h : s.Sound)
    (he : Step s (.answered t r p (.leased i w)) s') : ¬ (s'.cache.slot i).GivenUp := by
  have hc := change h he i
  generalize s'.cache.slot i = y at hc
  generalize hx : s.cache.slot i = x at hc
  cases hc with
  | none hne => exact absurd rfl hne
  | lease hfree hr =>
    subst hx
    exact not_givenUp_of_free h hfree hr

/-- Only an eviction gives a slot up, and it waits for any other thread that holds the slot. -/
theorem evicting_step (h : s.Sound) (he : Step s e s') (hold : ¬ (s.cache.slot i).GivenUp)
    (hnew : (s'.cache.slot i).GivenUp) :
    ∃ t k, s.calls t = some ⟨.evict k, .evictSlot k i⟩ ∧ s.keys[i]? = some k ∧
      ∀ u, (s.cache.slot i).holder = some u → u = t := by
  have hc := change h he i
  generalize hy : s'.cache.slot i = y at hc hnew
  generalize hx : s.cache.slot i = x at hc hold
  cases hc with
  | none => exact absurd hnew hold
  | lease => exact absurd hnew hold
  | forget =>
    unfold Slot.forgotten at hnew
    split at hnew <;> exact absurd hnew hold
  | @evict t r k =>
    cases he with
    | move hp hc =>
      have hf := h.fits _ _ hp
      cases hf with
      | evictSlot hk =>
        cases Cache.stepped hc (by simp) with
        | evicted hown => exact ⟨t, k, hp, hk, hx ▸ hown⟩
        | known _ hp => simp at hp
  | keep => exact absurd hnew hold
  | release => simp_all [Slot.GivenUp, Slot.released]

/-- Nothing is shown from a slot that is given up, but to the thread that looks through its lease
on it. -/
theorem shown_step (h : s.Sound) (he : Step s e s') (hw : e.shows k = some (i, w)) :
    s.keys[i]? = some k ∧ (s.cache.slot i).watermark = some w ∧
      ((∃ g ∈ s.grants, e.reader = some g ∧ g.slot = i) ∨
        e.reader = none ∧ ¬ (s.cache.slot i).GivenUp ∧ (s.cache.slot i).pendingReset = false) := by
  cases he with
  | @answer t r p c a hp hc =>
    have hf := h.fits _ _ hp
    cases Cache.stepped hc (by simp) with
    | @leased j n hfree hr =>
      cases hf with
      | acquireSlot hk =>
        cases hx : (s.cache.slot n).watermark with
        | none => simp [Event.shows, hx] at hw
        | some x =>
          simp only [Event.shows, hx, Option.ite_none_right_eq_some, Option.some.injEq,
            Prod.mk.injEq] at hw
          obtain ⟨rfl, rfl, rfl⟩ := hw
          exact ⟨hk, hx, Or.inr ⟨rfl, not_givenUp_of_free h hfree hr, (h.orderly.quiet n hfree).1⟩⟩
    | unknown _ hp => rcases hp with ⟨rfl, rfl⟩ | ⟨rfl, rfl⟩ | ⟨rfl, rfl⟩ <;> cases hf <;> cases hw
    | forgotten => cases hf; cases hw
    | unmapped => cases hf; cases hw
    | @shown n x hx =>
      cases hf with
      | peekSlot hk =>
        cases x with
        | none => cases hw
        | some x =>
          simp only [Event.shows, Option.ite_none_right_eq_some, Option.some.injEq,
            Prod.mk.injEq] at hw
          obtain ⟨rfl, rfl, rfl⟩ := hw
          obtain ⟨hmark, hup, hreset⟩ := Cache.live_of_peeked h.orderly hx
          exact ⟨hk, hmark, Or.inr ⟨rfl, hup, hreset⟩⟩
  | @look t g _ hg =>
    cases hx : (s.cache.slot g.slot).watermark with
    | none => simp [Event.shows, hx] at hw
    | some x =>
      simp only [Event.shows, hx, Option.ite_none_right_eq_some, Option.some.injEq,
        Prod.mk.injEq] at hw
      obtain ⟨rfl, rfl, rfl⟩ := hw
      exact ⟨h.keyed g hg, hx, Or.inl ⟨g, hg, rfl, rfl⟩⟩
  | _ => cases hw

end Threads
end DurableTopic.Cursor

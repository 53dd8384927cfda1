import DurableTopic.Proofs.Cursors
/-! Two caches of cursors that agree on some subscribers, though the slots of these may stand in other
places. A subscriber without a slot is as good as one whose slot is new. A call about such a subscriber
goes the same way on both. -/
namespace DurableTopic.Cursor

/-- A call that asks for something about one of these subscribers. -/
inductive Call.About (K : SubscriberKey → Prop) : Call → Prop where
  | acquire {k : SubscriberKey} (hk : K k) : About K (.acquire k)
  | reset {k : SubscriberKey} (hk : K k) : About K (.reset k)
  | evict {k : SubscriberKey} (hk : K k) : About K (.evict k)
  | peek {k : SubscriberKey} (hk : K k) : About K (.peek k)

/-- Answers that say the same about slots that correspond. -/
inductive Answer.Renamed (R : Nat → Nat → Prop) : Answer → Answer → Prop where
  | leased {i j : Nat} {w : Option Watermark} (hi : R i j) : Renamed R (.leased i w) (.leased j w)
  | done : Renamed R .done .done
  | shown {w : Option Watermark} : Renamed R (.shown w) (.shown w)

namespace Cache

/-- The slot of a subscriber, which is new if there is none. -/
def slotOf (c : Cache) (k : SubscriberKey) : Slot := (c.mapped.find? k).elim {} c.slot

/-- Slots that correspond are the same and are those of the same subscribers, and some subscribers
have the same slots. -/
structure Alike (K : SubscriberKey → Prop) (R : Nat → Nat → Prop) (c c' : Cache) : Prop where
  sound : c.Sound
  sound' : c'.Sound
  left : ∀ i j j', R i j → R i j' → j = j'
  right : ∀ i i' j, R i j → R i' j → i = i'
  inside : ∀ i j, R i j → i < c.slots.length ∧ j < c'.slots.length
  slot : ∀ i j, R i j → c.slot i = c'.slot j
  placed : ∀ i j k, R i j → K k → (c.mapped.find? k = some i ↔ c'.mapped.find? k = some j)
  same : ∀ k, K k → c.slotOf k = c'.slotOf k

variable {K : SubscriberKey → Prop} {R S : Nat → Nat → Prop} {c c' d d' : Cache}
  {j k : SubscriberKey} {i n : Nat} {s : Slot} {t : Thread} {r : Call} {a : Answer}

theorem slotOf_some (h : c.mapped.find? k = some i) : c.slotOf k = c.slot i := by
  simp [slotOf, h]

theorem slotOf_none (h : c.mapped.find? k = none) : c.slotOf k = {} := by
  simp [slotOf, h]

/-- A slot that changes is the slot of the subscriber that is mapped to it. -/
theorem slotOf_setSlot (h : i < c.slots.length) :
    (c.setSlot i s).slotOf k = if c.mapped.find? k = some i then s else c.slotOf k := by
  cases hm : c.mapped.find? k with
  | none => simp [slotOf, hm]
  | some n =>
    rw [slotOf_some (c := c.setSlot i s) (i := n) hm, slot_setSlot h, slotOf_some hm]
    simp

theorem alike_setSlot {m : Nat} (h : c.Alike K R c') (hi : R i m)
    (hs : (c.setSlot i s).Sound) (hs' : (c'.setSlot m s).Sound) :
    (c.setSlot i s).Alike K R (c'.setSlot m s) := by
  obtain ⟨hin, hin'⟩ := h.inside i m hi
  refine ⟨hs, hs', h.left, h.right, ?_, ?_, h.placed, ?_⟩
  · intro n n' hn
    simpa using h.inside n n' hn
  · intro n n' hn
    rw [slot_setSlot hin, slot_setSlot hin']
    by_cases hni : n = i
    · subst hni
      rw [if_pos rfl, if_pos (h.left _ _ _ hn hi)]
    · rw [if_neg hni, if_neg fun hm => hni (h.right n i n' hn (by rw [hm]; exact hi))]
      exact h.slot n n' hn
  · intro k hk
    rw [slotOf_setSlot hin, slotOf_setSlot hin', h.same k hk]
    simp only [h.placed i m k hi hk]

theorem alike_keep {m : Nat} {w : Watermark} (h : c.Alike K R c') (hi : R i m) :
    (c.keep i w).Alike K R (c'.keep m w) := by
  obtain ⟨hin, hin'⟩ := h.inside i m hi
  have hs : (c.keep i w).Sound := sound_keep h.sound hin
  have hs' : (c'.keep m w).Sound := sound_keep h.sound' hin'
  unfold keep at hs hs' ⊢
  rw [h.slot i m hi] at hs ⊢
  exact alike_setSlot h hi hs hs'

theorem alike_release {m : Nat} (h : c.Alike K R c') (hi : R i m) :
    (c.release i).Alike K R (c'.release m) := by
  obtain ⟨hin, hin'⟩ := h.inside i m hi
  have hs : (c.release i).Sound := sound_release h.sound hin
  have hs' : (c'.release m).Sound := sound_release h.sound' hin'
  unfold release at hs hs' ⊢
  rw [h.slot i m hi] at hs ⊢
  exact alike_setSlot h hi hs hs'

/-- A lease is given where no thread has one. -/
theorem acquire_isSome (h : c.Sound) :
    (c.call t (.acquire k)).isSome ↔ (c.slotOf k).holder = none := by
  constructor
  · intro hc
    obtain ⟨⟨a, d⟩, hc⟩ := Option.isSome_iff_exists.1 hc
    obtain ⟨i, -, hfree, hm | ⟨hm, -⟩, -⟩ := acquire_spec h hc
    · rw [slotOf_some hm, hfree]
    · rw [slotOf_none hm]
  · intro hfree
    refine acquire_free h fun i hi => ?_
    rwa [slotOf_some hi] at hfree

/-- Other calls wait for no thread but another one that has the lease. -/
theorem visit_isSome (hr : r = .reset k ∨ r = .evict k ∨ r = .peek k) :
    (c.call t r).isSome ↔ ∀ u, (c.slotOf k).holder = some u → u = t := by
  cases hm : c.mapped.find? k with
  | none =>
    rcases hr with rfl | rfl | rfl <;>
      simp [call, stepsAlone, advance, step, look, hm, slotOf]
  | some i =>
    rw [slotOf_some hm]
    cases hh : (c.slot i).holder with
    | none =>
      rcases hr with rfl | rfl | rfl <;>
        simp [call, stepsAlone, advance, step, look, hm, visit, hh]
    | some u =>
      by_cases hu : u = t <;> rcases hr with rfl | rfl | rfl <;>
        simp [call, stepsAlone, advance, step, look, hm, visit, hh, hu]

theorem answered_done (hr : r = .reset k ∨ r = .evict k) (hc : c.call t r = some (a, d)) :
    a = .done := by
  have hown := (visit_isSome (c := c) (t := t) (hr.imp_right Or.inl)).1 (by rw [hc]; rfl)
  cases hm : c.mapped.find? k with
  | none =>
    rcases hr with rfl | rfl <;>
      simp only [call, stepsAlone, advance, step, look, hm, Option.some.injEq, Prod.mk.injEq] at hc <;>
      exact hc.1.symm
  | some i =>
    rw [slotOf_some hm] at hown
    cases hh : (c.slot i).holder with
    | none =>
      rcases hr with rfl | rfl <;>
        simp only [call, stepsAlone, advance, step, look, hm, visit, hh, Option.some.injEq,
          Prod.mk.injEq] at hc <;> exact hc.1.symm
    | some u =>
      obtain rfl := hown u hh
      rcases hr with rfl | rfl <;>
        simp only [call, stepsAlone, advance, step, look, hm, visit, hh, if_true, Option.some.injEq,
          Prod.mk.injEq] at hc <;> exact hc.1.symm

/-- What an acquisition does to the slots of all subscribers, and which slot it leases. -/
structure Acquired (c d : Cache) (t : Thread) (k : SubscriberKey) (i : Nat) : Prop where
  slot : c.slot i = c.slotOf k
  found : c.mapped.find? k = some i ∨ c.mapped.find? k = none ∧ i = c.slots.length
  own : ∀ j, c.mapped.find? j = some i → j = k
  mapped : ∀ j, d.mapped.find? j = if j = k then some i else c.mapped.find? j
  leased : ∀ n, d.slot n = if n = i then { c.slotOf k with holder := some t } else c.slot n
  inside : i < d.slots.length
  grows : c.slots.length ≤ d.slots.length

theorem acquired_of_call (h : c.Sound) (hc : c.call t (.acquire k) = some (a, d)) :
    ∃ i, a = .leased i (c.slotOf k).watermark ∧ c.Acquired d t k i := by
  obtain ⟨i, rfl, hfree, hold, hmap, hslot, hin, hle⟩ := acquire_spec h hc
  have hsame : c.slot i = c.slotOf k := by
    rcases hold with hm | ⟨hm, rfl⟩
    · exact (slotOf_some hm).symm
    · rw [slotOf_none hm, slot_outside (Nat.le_refl _)]
  refine ⟨i, by rw [hsame], hsame, hold, fun j hj => ?_, hmap, by simpa only [hsame] using hslot, hin, hle⟩
  rcases hold with hm | ⟨-, rfl⟩
  · exact h.single j k i hj hm
  · exact absurd (h.inside j _ hj) (Nat.lt_irrefl _)

theorem slotOf_acquired (h : c.Acquired d t k i) :
    d.slotOf j = if j = k then { c.slotOf k with holder := some t } else c.slotOf j := by
  by_cases hj : j = k
  · subst hj
    have hm : d.mapped.find? j = some i := by rw [h.mapped, if_pos rfl]
    rw [slotOf_some hm, h.leased, if_pos rfl, if_pos rfl]
  · have hm := h.mapped j
    rw [if_neg hj] at hm ⊢
    cases hc : c.mapped.find? j with
    | none => rw [slotOf_none (hm.trans hc), slotOf_none hc]
    | some n =>
      have hne : n ≠ i := by
        rintro rfl
        exact hj (h.own j hc)
      rw [slotOf_some (hm.trans hc), slotOf_some hc, h.leased, if_neg hne]

/-- A slot that is leased now corresponds to no other than the one that is leased on the other
side. -/
theorem found_of_placed {m n' : Nat} (h : c.Alike K R c') (hk : K k) (hn : R n n')
    (hi : c.mapped.find? k = some i ∨ c.mapped.find? k = none ∧ i = c.slots.length)
    (hm : c'.mapped.find? k = some m ∨ c'.mapped.find? k = none ∧ m = c'.slots.length) :
    n = i ↔ n' = m := by
  obtain ⟨hlt, hlt'⟩ := h.inside n n' hn
  have hplaced := h.placed n n' k hn hk
  rcases hi with hi | ⟨hi, rfl⟩ <;> rcases hm with hm | ⟨hm, rfl⟩ <;> rw [hi, hm] at hplaced
  · simpa [eq_comm] using hplaced
  · have hne : n ≠ i := fun he => by simp [he] at hplaced
    exact iff_of_false hne (by omega)
  · have hne : n' ≠ m := fun he => by simp [he] at hplaced
    exact iff_of_false (by omega) hne
  · exact iff_of_false (by omega) (by omega)

theorem alike_acquire {a' : Answer} (h : c.Alike K R c') (hk : K k)
    (hc : c.call t (.acquire k) = some (a, d)) (hc' : c'.call t (.acquire k) = some (a', d')) :
    ∃ S : Nat → Nat → Prop, (∀ i j, R i j → S i j) ∧ d.Alike K S d' ∧ a.Renamed S a' := by
  obtain ⟨i, rfl, hi⟩ := acquired_of_call h.sound hc
  obtain ⟨m, rfl, hm⟩ := acquired_of_call h.sound' hc'
  have hpair : ∀ n n', R n n' → (n = i ↔ n' = m) :=
    fun n n' hn => found_of_placed h hk hn hi.found hm.found
  refine ⟨fun n n' => R n n' ∨ n = i ∧ n' = m, fun _ _ => Or.inl, ⟨sound_acquire h.sound hc,
    sound_acquire h.sound' hc', ?_, ?_, ?_, ?_, ?_, ?_⟩, ?_⟩
  · rintro n n₁ n₂ (hn | ⟨hn, rfl⟩) (hn' | ⟨hn', rfl⟩)
    · exact h.left n n₁ n₂ hn hn'
    · exact (hpair n n₁ hn).1 hn'
    · exact ((hpair n n₂ hn').1 hn).symm
    · rfl
  · rintro n₁ n₂ n (hn | ⟨rfl, hn⟩) (hn' | ⟨rfl, hn'⟩)
    · exact h.right n₁ n₂ n hn hn'
    · exact (hpair n₁ n hn).2 hn'
    · exact ((hpair n₂ n hn').2 hn).symm
    · rfl
  · rintro n n' (hn | ⟨rfl, rfl⟩)
    · obtain ⟨hlt, hlt'⟩ := h.inside n n' hn
      exact ⟨Nat.lt_of_lt_of_le hlt hi.grows, Nat.lt_of_lt_of_le hlt' hm.grows⟩
    · exact ⟨hi.inside, hm.inside⟩
  · rintro n n' (hn | ⟨rfl, rfl⟩)
    · rw [hi.leased, hm.leased, h.same k hk, h.slot n n' hn]
      simp only [hpair n n' hn]
    · rw [hi.leased, hm.leased, if_pos rfl, if_pos rfl, h.same k hk]
  · intro n n' j hn hj
    rw [hi.mapped, hm.mapped]
    by_cases hjk : j = k
    · rcases hn with hn | ⟨rfl, rfl⟩
      · simpa [hjk, eq_comm] using hpair n n' hn
      · simp [hjk]
    · rw [if_neg hjk, if_neg hjk]
      rcases hn with hn | ⟨rfl, rfl⟩
      · exact h.placed n n' j hn hj
      · exact iff_of_false (fun hji => hjk (hi.own j hji)) fun hjm => hjk (hm.own j hjm)
  · intro j hj
    rw [slotOf_acquired hi, slotOf_acquired hm, h.same k hk, h.same j hj]
  · rw [h.same k hk]
    exact .leased (Or.inr ⟨rfl, rfl⟩)

theorem slotOf_other (h : c.Sound) (hjk : j ≠ k) (hm : d.mapped.find? j = c.mapped.find? j)
    (hslot : ∀ n, c.mapped.find? k ≠ some n → d.slot n = c.slot n) : d.slotOf j = c.slotOf j := by
  cases hj : c.mapped.find? j with
  | none => rw [slotOf_none (hm.trans hj), slotOf_none hj]
  | some n =>
    rw [slotOf_some (hm.trans hj), slotOf_some hj]
    exact hslot n fun hk => hjk (h.single j k n hj hk)

/-- A new slot stays as it is when it is reset. -/
theorem slotOf_reset (h : c.Sound) (hc : c.call t (.reset k) = some (a, d)) :
    d.slotOf j = if j = k then (c.slotOf k).forgotten else c.slotOf j := by
  obtain ⟨hmap, -, hslot⟩ := reset_spec (h.inside k) hc
  have hm : d.mapped.find? j = c.mapped.find? j := by rw [hmap]
  by_cases hjk : j = k
  · subst hjk
    rw [if_pos rfl]
    cases hj : c.mapped.find? j with
    | none =>
      rw [slotOf_none (hm.trans hj), slotOf_none hj]
      rfl
    | some n => rw [slotOf_some (hm.trans hj), slotOf_some hj, hslot, if_pos hj]
  · rw [if_neg hjk]
    exact slotOf_other h hjk hm fun n hn => by rw [hslot, if_neg hn]

theorem slotOf_evict (h : c.Sound) (hc : c.call t (.evict k) = some (a, d)) :
    d.slotOf j = if j = k then {} else c.slotOf j := by
  obtain ⟨hmap, -, hslot⟩ := evict_spec (h.inside k) hc
  have hm := hmap j
  by_cases hjk : j = k
  · rw [if_pos hjk] at hm ⊢
    exact slotOf_none hm
  · rw [if_neg hjk] at hm ⊢
    exact slotOf_other h hjk hm fun n hn => by rw [hslot, if_neg hn]

theorem alike_reset {a' : Answer} (h : c.Alike K R c') (hk : K k)
    (hc : c.call t (.reset k) = some (a, d)) (hc' : c'.call t (.reset k) = some (a', d')) :
    d.Alike K R d' := by
  obtain ⟨hmap, hlen, hslot⟩ := reset_spec (h.sound.inside k) hc
  obtain ⟨hmap', hlen', hslot'⟩ := reset_spec (h.sound'.inside k) hc'
  refine ⟨sound_reset h.sound hc, sound_reset h.sound' hc', h.left, h.right, ?_, ?_, ?_, ?_⟩
  · rw [hlen, hlen']
    exact h.inside
  · intro n n' hn
    rw [hslot, hslot', h.slot n n' hn]
    simp only [h.placed n n' k hn hk]
  · rw [hmap, hmap']
    exact h.placed
  · intro j hj
    rw [slotOf_reset h.sound hc, slotOf_reset h.sound' hc', h.same k hk, h.same j hj]

theorem alike_evict {a' : Answer} (h : c.Alike K R c') (hk : K k)
    (hc : c.call t (.evict k) = some (a, d)) (hc' : c'.call t (.evict k) = some (a', d')) :
    d.Alike K R d' := by
  obtain ⟨hmap, hlen, hslot⟩ := evict_spec (h.sound.inside k) hc
  obtain ⟨hmap', hlen', hslot'⟩ := evict_spec (h.sound'.inside k) hc'
  refine ⟨sound_evict h.sound hc, sound_evict h.sound' hc', h.left, h.right, ?_, ?_, ?_, ?_⟩
  · rw [hlen, hlen']
    exact h.inside
  · intro n n' hn
    rw [hslot, hslot', h.slot n n' hn]
    simp only [h.placed n n' k hn hk]
  · intro n n' j hn hj
    rw [hmap, hmap']
    split
    · simp
    · exact h.placed n n' j hn hj
  · intro j hj
    rw [slotOf_evict h.sound hc, slotOf_evict h.sound' hc', h.same j hj]

theorem shown_eq : c.shown k = (c.slotOf k).shownToHolder := by
  unfold shown slotOf
  cases c.mapped.find? k <;> rfl

/-- A call is answered alike by both, or waits on both. -/
theorem alike_call (h : c.Alike K R c') (hr : r.About K) :
    (c.call t r = none ∧ c'.call t r = none) ∨
    ∃ S a a' d d', (∀ i j, R i j → S i j) ∧ c.call t r = some (a, d) ∧ c'.call t r = some (a', d') ∧
      d.Alike K S d' ∧ a.Renamed S a' := by
  have hboth : (c.call t r).isSome ↔ (c'.call t r).isSome := by
    cases hr with
    | acquire hk => rw [acquire_isSome h.sound, acquire_isSome h.sound', h.same _ hk]
    | @reset k hk => simp [visit_isSome (k := k), h.same k hk]
    | @evict k hk => simp [visit_isSome (k := k), h.same k hk]
    | @peek k hk => simp [visit_isSome (k := k), h.same k hk]
  cases hc : c.call t r with
  | none =>
    rw [hc] at hboth
    exact Or.inl ⟨rfl, by simpa using hboth⟩
  | some p =>
    rw [hc] at hboth
    obtain ⟨⟨a', d'⟩, hc'⟩ := Option.isSome_iff_exists.1 (hboth.1 rfl)
    obtain ⟨a, d⟩ := p
    refine Or.inr ?_
    cases hr with
    | acquire hk =>
      obtain ⟨S, hS, hd, ha⟩ := alike_acquire h hk hc hc'
      exact ⟨S, a, a', d, d', hS, rfl, hc', hd, ha⟩
    | reset hk =>
      obtain rfl := answered_done (Or.inl rfl) hc
      obtain rfl := answered_done (Or.inl rfl) hc'
      exact ⟨R, _, _, d, d', fun _ _ h => h, rfl, hc', alike_reset h hk hc hc', .done⟩
    | evict hk =>
      obtain rfl := answered_done (Or.inr rfl) hc
      obtain rfl := answered_done (Or.inr rfl) hc'
      exact ⟨R, _, _, d, d', fun _ _ h => h, rfl, hc', alike_evict h hk hc hc', .done⟩
    | @peek k hk =>
      obtain ⟨rfl, rfl⟩ := peek_spec h.sound hc
      obtain ⟨rfl, rfl⟩ := peek_spec h.sound' hc'
      refine ⟨R, _, _, _, _, fun _ _ h => h, rfl, hc', h, ?_⟩
      rw [shown_eq, shown_eq, h.same k hk]
      exact .shown

/-- A cache in which every slot is new is as good as an empty one. -/
theorem alike_blank (h : c.Sound) (hc : ∀ k, K k → c.slotOf k = {}) :
    ({} : Cache).Alike K (fun _ _ => False) c where
  sound := sound_empty
  sound' := h
  left _ _ _ hi := hi.elim
  right _ _ _ hi := hi.elim
  inside _ _ hi := hi.elim
  slot _ _ hi := hi.elim
  placed _ _ _ hi := hi.elim
  same k hk := (hc k hk).symm

theorem alike_empty : ({} : Cache).Alike K (fun _ _ => False) {} :=
  alike_blank sound_empty fun _ _ => rfl

end Cache
end DurableTopic.Cursor

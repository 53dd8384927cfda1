import DurableTopic.Cursor.Cache
/-! What a call on the cache of cursors does when no other thread moves meanwhile. -/
namespace DurableTopic.Cursor

/-- A slot that is reset: at once, or when its lease is released. -/
def Slot.forgotten (s : Slot) : Slot :=
  if s.holder = none then { s with watermark := none } else { s with pendingReset := true }

/-- A slot that is evicted: at once, or when its lease is released. -/
def Slot.evicted (s : Slot) : Slot :=
  if s.holder = none then { s with watermark := none, retired := true }
  else { s with pendingEvict := true }

namespace Cache

/-- A subscriber's slot is its own and is not given up, and nothing is due on a slot that no thread
holds. -/
structure Sound (c : Cache) : Prop where
  inside : ∀ k i, c.mapped.find? k = some i → i < c.slots.length
  fresh : ∀ k i, c.mapped.find? k = some i →
    (c.slot i).retired = false ∧ (c.slot i).pendingEvict = false
  single : ∀ j k i, c.mapped.find? j = some i → c.mapped.find? k = some i → j = k
  quiet : ∀ i, (c.slot i).holder = none →
    (c.slot i).pendingReset = false ∧ (c.slot i).pendingEvict = false

variable {c c' : Cache} {t : Thread} {j k : SubscriberKey} {i n : Nat} {s : Slot} {a : Answer}
  {w : Watermark}

theorem sound_empty : ({} : Cache).Sound where
  inside := by simp
  fresh := by simp
  single := by simp
  quiet := by simp [slot]

theorem slot_setSlot (h : i < c.slots.length) :
    (c.setSlot i s).slot n = if n = i then s else c.slot n := by
  by_cases hn : n = i
  · subst hn
    simp [slot, setSlot, h]
  · simp [slot, setSlot, hn, List.getElem?_set_ne (Ne.symm hn)]

theorem slot_outside (h : c.slots.length ≤ i) : c.slot i = {} := by
  simp [slot, h]

theorem held_inside (h : (c.slot i).holder = some t) : i < c.slots.length := by
  by_cases hi : i < c.slots.length
  · exact hi
  · rw [slot_outside (by omega)] at h
    cases h

@[simp] theorem mapped_setSlot : (c.setSlot i s).mapped = c.mapped := rfl

@[simp] theorem length_setSlot : (c.setSlot i s).slots.length = c.slots.length := by
  simp [setSlot]

theorem find?_unmap (h : c.mapped.find? k = some i) :
    (c.unmap k i).mapped.find? j = if j = k then none else c.mapped.find? j := by
  rw [unmap, if_pos h]
  exact c.mapped.find?_erase k j

@[simp] theorem slot_unmap : (c.unmap k i).slot n = c.slot n := by
  unfold unmap
  split <;> rfl

@[simp] theorem slots_unmap : (c.unmap k i).slots = c.slots := by
  unfold unmap
  split <;> rfl

/-- A lease is given on the subscriber's slot, or on a new one. -/
theorem acquire_spec (h : c.Sound) (hc : c.call t (.acquire k) = some (a, c')) :
    ∃ i, a = .leased i (c.slot i).watermark ∧ (c.slot i).holder = none ∧
      (c.mapped.find? k = some i ∨ c.mapped.find? k = none ∧ i = c.slots.length) ∧
      (∀ j, c'.mapped.find? j = if j = k then some i else c.mapped.find? j) ∧
      (∀ n, c'.slot n = if n = i then { c.slot i with holder := some t } else c.slot n) ∧
      i < c'.slots.length ∧ c.slots.length ≤ c'.slots.length := by
  cases hm : c.mapped.find? k with
  | some i =>
    obtain ⟨hr, -⟩ := h.fresh k i hm
    cases hh : (c.slot i).holder with
    | some u => simp [call, stepsAlone, advance, step, findOrMake, visit, hm, hh] at hc
    | none =>
      simp only [call, stepsAlone, advance, step, findOrMake, visit, hm, hh, hr, Bool.false_eq_true,
        if_false, Option.some.injEq, Prod.mk.injEq] at hc
      obtain ⟨rfl, rfl⟩ := hc
      have hi := h.inside k i hm
      refine ⟨i, rfl, hh, Or.inl rfl, ?_, ?_, by simpa using hi, by simp⟩
      · intro j
        by_cases hj : j = k <;> simp [hj, hm]
      · intro n
        simp only [slot_setSlot hi, hr]
  | none =>
    have hnew : (c.slots ++ [({} : Slot)])[c.slots.length]? = some {} := by simp
    simp only [call, stepsAlone, advance, step, findOrMake, visit, hm, slot, hnew,
      Option.getD_some, Bool.false_eq_true, if_false, Option.some.injEq, Prod.mk.injEq] at hc
    obtain ⟨rfl, rfl⟩ := hc
    have ho : c.slot c.slots.length = {} := slot_outside (Nat.le_refl _)
    refine ⟨c.slots.length, by rw [ho], by rw [ho], Or.inr ⟨rfl, rfl⟩,
      fun j => c.mapped.find?_put k j _, ?_, by simp, by simp⟩
    intro n
    rw [slot_setSlot (by simp), ho]
    split
    · rfl
    · rcases Nat.lt_or_gt_of_ne ‹n ≠ c.slots.length› with hl | hl
      · simp [slot, List.getElem?_append_left hl]
      · rw [slot_outside (Nat.le_of_lt hl)]
        exact slot_outside (by simpa using Nat.succ_le_of_lt hl)

theorem reset_spec (hi : ∀ i, c.mapped.find? k = some i → i < c.slots.length)
    (hc : c.call t (.reset k) = some (a, c')) :
    c'.mapped = c.mapped ∧ c'.slots.length = c.slots.length ∧
    ∀ n, c'.slot n = if c.mapped.find? k = some n then (c.slot n).forgotten else c.slot n := by
  cases hm : c.mapped.find? k with
  | none =>
    simp only [call, stepsAlone, advance, step, look, hm, Option.some.injEq, Prod.mk.injEq] at hc
    obtain ⟨rfl, rfl⟩ := hc
    simp
  | some i =>
    cases hh : (c.slot i).holder with
    | none =>
      simp only [call, stepsAlone, advance, step, look, hm, visit, hh, Option.some.injEq,
        Prod.mk.injEq] at hc
      obtain ⟨rfl, rfl⟩ := hc
      refine ⟨rfl, by simp, fun n => ?_⟩
      rw [slot_setSlot (hi i hm)]
      by_cases hn : n = i
      · simp [hn, Slot.forgotten, hh]
      · simp [hn, Ne.symm hn]
    | some u =>
      by_cases hu : u = t
      · subst hu
        simp only [call, stepsAlone, advance, step, look, hm, visit, hh, if_true,
          Option.some.injEq, Prod.mk.injEq] at hc
        obtain ⟨rfl, rfl⟩ := hc
        refine ⟨rfl, by simp, fun n => ?_⟩
        rw [slot_setSlot (hi i hm)]
        by_cases hn : n = i
        · simp [hn, Slot.forgotten, hh]
        · simp [hn, Ne.symm hn]
      · simp [call, stepsAlone, advance, step, look, hm, visit, hh, hu] at hc

theorem evict_spec (hi : ∀ i, c.mapped.find? k = some i → i < c.slots.length)
    (hc : c.call t (.evict k) = some (a, c')) :
    (∀ j, c'.mapped.find? j = if j = k then none else c.mapped.find? j) ∧
    c'.slots.length = c.slots.length ∧
    ∀ n, c'.slot n = if c.mapped.find? k = some n then (c.slot n).evicted else c.slot n := by
  cases hm : c.mapped.find? k with
  | none =>
    simp only [call, stepsAlone, advance, step, look, hm, Option.some.injEq, Prod.mk.injEq] at hc
    obtain ⟨rfl, rfl⟩ := hc
    refine ⟨fun j => ?_, rfl, by simp⟩
    by_cases hj : j = k <;> simp [hj, hm]
  | some i =>
    cases hh : (c.slot i).holder with
    | none =>
      simp only [call, stepsAlone, advance, step, look, hm, visit, hh, Option.some.injEq,
        Prod.mk.injEq] at hc
      obtain ⟨rfl, rfl⟩ := hc
      refine ⟨fun j => find?_unmap hm, by simp, fun n => ?_⟩
      rw [slot_unmap, slot_setSlot (hi i hm)]
      by_cases hn : n = i
      · simp [hn, Slot.evicted, hh]
      · simp [hn, Ne.symm hn]
    | some u =>
      by_cases hu : u = t
      · subst hu
        simp only [call, stepsAlone, advance, step, look, hm, visit, hh, if_true,
          Option.some.injEq, Prod.mk.injEq] at hc
        obtain ⟨rfl, rfl⟩ := hc
        refine ⟨fun j => find?_unmap hm, by simp, fun n => ?_⟩
        rw [slot_unmap, slot_setSlot (hi i hm)]
        by_cases hn : n = i
        · simp [hn, Slot.evicted, hh]
        · simp [hn, Ne.symm hn]
      · simp [call, stepsAlone, advance, step, look, hm, visit, hh, hu] at hc

/-- An eviction waits for no thread but another one that holds the slot. -/
theorem evict_own (ht : ∀ i u, c.mapped.find? k = some i → (c.slot i).holder = some u → u = t) :
    (c.call t (.evict k)).isSome := by
  cases hm : c.mapped.find? k with
  | none => simp [call, stepsAlone, advance, step, look, hm]
  | some i =>
    cases hh : (c.slot i).holder with
    | none => simp [call, stepsAlone, advance, step, look, hm, visit, hh]
    | some u =>
      obtain rfl := ht i u hm hh
      simp [call, stepsAlone, advance, step, look, hm, visit, hh]

/-- What a thread that may look sees of a subscriber's cursor. -/
def shown (c : Cache) (k : SubscriberKey) : Option Watermark :=
  (c.mapped.find? k).bind fun i => (c.slot i).shownToHolder

theorem peek_spec (h : c.Sound) (hc : c.call t (.peek k) = some (a, c')) :
    c' = c ∧ a = .shown (c.shown k) := by
  cases hm : c.mapped.find? k with
  | none =>
    simp only [call, stepsAlone, advance, step, look, hm, Option.some.injEq, Prod.mk.injEq] at hc
    obtain ⟨rfl, rfl⟩ := hc
    simp [shown, hm]
  | some i =>
    cases hh : (c.slot i).holder with
    | none =>
      simp only [call, stepsAlone, advance, step, look, hm, visit, hh, Option.some.injEq,
        Prod.mk.injEq] at hc
      obtain ⟨rfl, rfl⟩ := hc
      simp [shown, hm, Slot.shownToHolder, h.quiet i hh]
    | some u =>
      by_cases hu : u = t
      · subst hu
        simp only [call, stepsAlone, advance, step, look, hm, visit, hh, if_true,
          Option.some.injEq, Prod.mk.injEq] at hc
        obtain ⟨rfl, rfl⟩ := hc
        simp [shown, hm]
      · simp [call, stepsAlone, advance, step, look, hm, visit, hh, hu] at hc

/-- Who looks at a slot that no other thread holds sees its cursor. -/
theorem peek_own (h : c.Sound)
    (ht : ∀ i u, c.mapped.find? k = some i → (c.slot i).holder = some u → u = t) :
    c.call t (.peek k) = some (.shown (c.shown k), c) := by
  cases hm : c.mapped.find? k with
  | none => simp [call, stepsAlone, advance, step, look, hm, shown]
  | some i =>
    cases hh : (c.slot i).holder with
    | none =>
      simp [call, stepsAlone, advance, step, look, hm, visit, hh, shown, Slot.shownToHolder,
        h.quiet i hh]
    | some u =>
      obtain rfl := ht i u hm hh
      simp [call, stepsAlone, advance, step, look, hm, visit, hh, shown]

/-- No thread holds the slot of a subscriber. -/
def Free (c : Cache) (k : SubscriberKey) : Prop :=
  ∀ i, c.mapped.find? k = some i → (c.slot i).holder = none

/-- Whoever looks sees this cursor. -/
def Shows (c : Cache) (k : SubscriberKey) (w : Option Watermark) : Prop :=
  ∀ t, c.call t (.peek k) = some (.shown w, c)

theorem free_of_shows {w : Option Watermark} (h : c.Shows k w) : c.Free k := by
  intro i hi
  cases hh : (c.slot i).holder with
  | none => rfl
  | some u =>
    have := h (u ++ "'")
    have hne : u ≠ u ++ "'" := fun he => by
      have := congrArg String.length he
      simp at this
    simp [call, stepsAlone, advance, step, look, hi, visit, hh, hne] at this

theorem shows_of_free (hf : c.Free k) :
    c.Shows k ((c.mapped.find? k).bind fun i => (c.slot i).watermark) := by
  intro t
  cases hm : c.mapped.find? k with
  | none => simp [call, stepsAlone, advance, step, look, hm]
  | some i => simp [call, stepsAlone, advance, step, look, hm, visit, hf i hm]

theorem shows_of_slot {i : Nat} (hm : c.mapped.find? k = some i) (hh : (c.slot i).holder = none) :
    c.Shows k (c.slot i).watermark := by
  have hfree : c.Free k := fun j hj => Option.some.inj (hm.symm.trans hj) ▸ hh
  simpa [hm] using shows_of_free hfree

theorem shown_of_free (h : c.Sound) (hf : c.Free k) :
    c.shown k = (c.mapped.find? k).bind fun i => (c.slot i).watermark := by
  cases hm : c.mapped.find? k with
  | none => simp [shown, hm]
  | some i => simp [shown, hm, Slot.shownToHolder, h.quiet i (hf i hm)]

theorem sound_acquire (h : c.Sound) (hc : c.call t (.acquire k) = some (a, c')) : c'.Sound := by
  obtain ⟨i, -, hfree, hold, hmap, hslot, hin, hle⟩ := acquire_spec h hc
  have hnew : ∀ j, c.mapped.find? j = some i → j = k := by
    intro j hj
    rcases hold with hold | ⟨-, rfl⟩
    · exact h.single j k i hj hold
    · exact absurd (h.inside j _ hj) (Nat.lt_irrefl _)
  refine ⟨?_, ?_, ?_, ?_⟩
  · intro j n hj
    rw [hmap] at hj
    split at hj
    · cases hj
      exact hin
    · exact Nat.lt_of_lt_of_le (h.inside j n hj) hle
  · intro j n hj
    rw [hslot]
    split
    · rename_i hn
      subst hn
      rcases hold with hold | ⟨-, rfl⟩
      · exact h.fresh k _ hold
      · rw [slot_outside (Nat.le_refl _)]
        exact ⟨rfl, rfl⟩
    · rename_i hn
      rw [hmap] at hj
      split at hj
      · cases hj
        exact absurd rfl hn
      · exact h.fresh j n hj
  · intro j m n hj hm
    rw [hmap] at hj hm
    split at hj <;> split at hm
    · simp_all
    · cases hj
      exact absurd (hnew _ hm) ‹_›
    · cases hm
      exact absurd (hnew _ hj) ‹_›
    · exact h.single j m n hj hm
  · intro n hn
    rw [hslot] at hn ⊢
    split at hn
    · cases hn
    · rename_i hne
      rw [if_neg hne]
      exact h.quiet n hn

theorem sound_reset (h : c.Sound) (hc : c.call t (.reset k) = some (a, c')) : c'.Sound := by
  obtain ⟨hmap, hlen, hslot⟩ := reset_spec (h.inside k) hc
  refine ⟨?_, ?_, ?_, ?_⟩
  · rw [hmap, hlen]
    exact h.inside
  · intro j n hj
    rw [hmap] at hj
    have := h.fresh j n hj
    rw [hslot]
    split
    · unfold Slot.forgotten
      split <;> exact this
    · exact this
  · rw [hmap]
    exact h.single
  · intro n
    have := h.quiet n
    rw [hslot]
    split
    · unfold Slot.forgotten
      split <;> simp_all
    · exact this

theorem sound_evict (h : c.Sound) (hc : c.call t (.evict k) = some (a, c')) : c'.Sound := by
  obtain ⟨hmap, hlen, hslot⟩ := evict_spec (h.inside k) hc
  have hold : ∀ {j n}, c'.mapped.find? j = some n → j ≠ k ∧ c.mapped.find? j = some n := by
    intro j n hj
    rw [hmap] at hj
    split at hj
    · cases hj
    · exact ⟨‹_›, hj⟩
  refine ⟨?_, ?_, ?_, ?_⟩
  · intro j n hj
    rw [hlen]
    exact h.inside j n (hold hj).2
  · intro j n hj
    obtain ⟨hne, hj⟩ := hold hj
    rw [hslot, if_neg fun hk => hne (h.single j k n hj hk)]
    exact h.fresh j n hj
  · intro j m n hj hm
    exact h.single j m n (hold hj).2 (hold hm).2
  · intro n
    have := h.quiet n
    rw [hslot]
    split
    · unfold Slot.evicted
      split <;> simp_all
    · exact this

theorem sound_keep (h : c.Sound) (hi : i < c.slots.length) : (c.keep i w).Sound := by
  have hslot := fun n =>
    slot_setSlot (c := c) (s := { c.slot i with watermark := some w }) (n := n) hi
  refine ⟨by simpa [keep] using h.inside, ?_, by simpa [keep] using h.single, ?_⟩
  · intro j n hj
    rw [keep, hslot]
    split
    · rename_i hn
      subst hn
      exact h.fresh j _ hj
    · exact h.fresh j n hj
  · intro n hn
    rw [keep, hslot] at hn ⊢
    split
    · rename_i hne
      subst hne
      exact h.quiet _ (by simpa using hn)
    · rename_i hne
      rw [if_neg hne] at hn
      exact h.quiet n hn

theorem sound_release (h : c.Sound) (hi : i < c.slots.length) : (c.release i).Sound := by
  have hslot := fun n => slot_setSlot (c := c) (s := (c.slot i).released) (n := n) hi
  refine ⟨by simpa [release] using h.inside, ?_, by simpa [release] using h.single, ?_⟩
  · intro j n hj
    rw [release, hslot]
    split
    · rename_i hn
      subst hn
      have := h.fresh j _ hj
      simp [Slot.released, this]
    · exact h.fresh j n hj
  · intro n hn
    rw [release, hslot] at hn ⊢
    split
    · exact ⟨rfl, rfl⟩
    · rename_i hne
      rw [if_neg hne] at hn
      exact h.quiet n hn

/-- A lease that no thread has is given. -/
theorem acquire_free (h : c.Sound) (hf : c.Free k) : (c.call t (.acquire k)).isSome := by
  cases hm : c.mapped.find? k with
  | none => simp [call, stepsAlone, advance, step, findOrMake, visit, hm, slot]
  | some i =>
    simp [call, stepsAlone, advance, step, findOrMake, visit, hm, hf i hm, (h.fresh k i hm).1]

/-- The cursor of a subscriber stands somewhere, if anywhere, and no thread holds it. -/
structure Stands (c : Cache) (k : SubscriberKey) (w : Option Watermark) : Prop where
  sound : c.Sound
  free : c.Free k
  shown : c.shown k = w

/-- A thread holds the cursor of a subscriber, and was not asked for it. -/
structure Leased (c : Cache) (t : Thread) (k : SubscriberKey) (i : Nat) (w : Option Watermark) :
    Prop where
  sound : c.Sound
  mapped : c.mapped.find? k = some i
  holder : (c.slot i).holder = some t
  watermark : (c.slot i).watermark = w
  unasked : (c.slot i).pendingReset = false

theorem stands_of_shows {o : Option Watermark} (h : c.Sound) (hs : c.Shows k o) :
    c.Stands k o where
  sound := h
  free := free_of_shows hs
  shown := by
    have hf := free_of_shows hs
    have hp := peek_own (t := "") (k := k) h fun i u hi hu => by simp [hf i hi] at hu
    simpa using hp.symm.trans (hs "")

theorem acquire_stands {o : Option Watermark} (h : c.Stands k o) :
    ∃ i c', c.call t (.acquire k) = some (.leased i o, c') ∧ c'.Leased t k i o := by
  obtain ⟨⟨a, c'⟩, hc⟩ := Option.isSome_iff_exists.1 (acquire_free (t := t) h.sound h.free)
  obtain ⟨i, rfl, hfree, hold, hmap, hslot, -, -⟩ := acquire_spec h.sound hc
  have hw : (c.slot i).watermark = o := by
    rw [← h.shown, shown_of_free h.sound h.free]
    rcases hold with hm | ⟨hm, rfl⟩
    · simp [hm]
    · simp [hm, slot_outside]
  refine ⟨i, c', by rw [hc, hw], sound_acquire h.sound hc, by simp [hmap], ?_, ?_, ?_⟩
  · simp [hslot]
  · simp [hslot, hw]
  · simpa [hslot] using (h.sound.quiet i hfree).1

theorem leased_keep {o : Option Watermark} (h : c.Leased t k i o) :
    (c.keep i w).Leased t k i (some w) := by
  have hi := h.sound.inside k i h.mapped
  refine ⟨sound_keep h.sound hi, h.mapped, ?_, ?_, ?_⟩ <;>
    simp [keep, slot_setSlot hi, h.holder, h.unasked]

theorem stands_release {o : Option Watermark} (h : c.Leased t k i o) :
    (c.release i).Stands k o := by
  have hi := h.sound.inside k i h.mapped
  have hslot : (c.release i).slot i = (c.slot i).released := by simp [release, slot_setSlot hi]
  have hm : (c.release i).mapped.find? k = some i := h.mapped
  refine ⟨sound_release h.sound hi, fun n hn => ?_, ?_⟩
  · obtain rfl : i = n := by simpa [hm] using hn
    simp [hslot, Slot.released]
  · simp [shown, hm, hslot, Slot.released, Slot.shownToHolder, h.unasked,
      (h.sound.fresh k i h.mapped).2, h.watermark]

end Cache
end DurableTopic.Cursor

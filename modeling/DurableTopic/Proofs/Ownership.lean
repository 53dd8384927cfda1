import DurableTopic.Proofs.Exclusion
/-! Who waits for which slot. A slot is held through a lease, and a subscriber is mapped to the newest
of its slots, so that no thread waits for a slot that is older than one it has a lease on. -/
namespace DurableTopic.Cursor

/-- The slot that a call has found, and may have to wait for. -/
def Call.slot? : Call → Option Nat
  | .acquireSlot _ i | .resetSlot i | .evictSlot _ i | .peekSlot i => some i
  | _ => none

/-- The subscriber that a call names. -/
def Call.key? : Call → Option SubscriberKey
  | .acquire k | .acquireSlot k _ | .acquireUnmap k _ | .reset k | .evict k | .evictSlot k _
  | .evictUnmap k _ | .peek k => some k
  | .resetSlot _ | .peekSlot _ => none

namespace Threads

/-- A thread waits for the lease on a slot to be released. -/
def Awaits (s : Threads) (t : Thread) (i : Nat) : Prop :=
  ∃ p, s.calls t = some p ∧ p.place.slot? = some i ∧ s.cache.step t p.place = .blocked

/-- Slots are held through leases, and the newest slot of a subscriber comes last. -/
structure Owned (s : Threads) : Prop where
  leased : ∀ i t, (s.cache.slot i).holder = some t → ∃ g ∈ s.grants, g.thread = t ∧ g.slot = i
  newest : ∀ k i j, s.cache.mapped.find? k = some i → s.keys[j]? = some k → j ≤ i
  later : ∀ t p i, s.calls t = some p → p.place.slot? = some i →
    ∀ g ∈ s.grants, g.thread = t → s.keys[i]? = some g.key → g.slot ≤ i

variable {s s' : Threads} {t u : Thread} {e : Event} {p : Pending} {k : SubscriberKey} {i j : Nat}
  {g : Grant} {tr : List Event}

/-- Who holds a slot that others had or nobody had before is given a lease on it. -/
theorem leased_step (h : s.Sound) (ho : s.Owned) (he : Step s e s')
    (hi : (s'.cache.slot i).holder = some u) : ∃ g ∈ s'.grants, g.thread = u ∧ g.slot = i := by
  have hc := change h he i
  have hkept : (s.cache.slot i).holder = some u → (∀ g, e = .released g → g.slot ≠ i) →
      ∃ g ∈ s'.grants, g.thread = u ∧ g.slot = i := by
    intro hold hne
    obtain ⟨g, hg, ht, hslot⟩ := ho.leased i u hold
    have hstays := (grants_kept he hg).resolve_right fun hr => hne g hr hslot
    exact ⟨g, hstays, ht, hslot⟩
  generalize hy : s'.cache.slot i = y at hc hi
  generalize hx : s.cache.slot i = x at hc hkept
  cases hc with
  | none hne =>
    apply hkept hi
    rintro g rfl
    exact fun hslot => hne (congrArg some hslot)
  | @lease t r k _ hfree hr =>
    cases he with
    | answer hp hc =>
      cases h.fits _ _ hp with
      | acquireSlot hk => exact ⟨_, List.mem_cons_self, Option.some.inj hi, rfl⟩
  | forget => exact hkept (by rwa [Slot.holder_forgotten] at hi) (by simp)
  | evict => exact hkept (by rwa [Slot.holder_evicted] at hi) (by simp)
  | keep => exact hkept hi (by simp)
  | release => cases hi

/-- A mapping that is there after a step was there before, or is that of a slot just made. -/
theorem mapped_step (h : s.Sound) (he : Step s e s')
    (hm : s'.cache.mapped.find? k = some i) :
    s.cache.mapped.find? k = some i ∨ i = s.keys.length := by
  have hunmap : ∀ j n, ((s.cache.unmap j n).mapped.find? k = some i) →
      s.cache.mapped.find? k = some i := by
    intro j n hj
    unfold Cache.unmap at hj
    split at hj
    · rw [Assoc.find?_erase] at hj
      split at hj
      · cases hj
      · exact hj
    · exact hj
  cases he with
  | move hp hc =>
    cases Cache.stepped hc (by simp) with
    | made =>
      rw [Assoc.find?_put] at hm
      split at hm
      · exact Or.inr ((Option.some.inj hm).symm.trans h.orderly.made.symm)
      · exact Or.inl hm
    | again => exact Or.inl (hunmap _ _ hm)
    | _ => exact Or.inl hm
  | answer hp hc =>
    cases Cache.stepped hc (by simp) with
    | unmapped => exact Or.inl (hunmap _ _ hm)
    | _ => exact Or.inl hm
  | _ => exact Or.inl hm

/-- A slot is made only for a subscriber that is mapped to none. -/
theorem keys_step (he : Step s e s') : ∃ new, s'.keys = s.keys ++ new ∧ new.length ≤ 1 ∧
    ∀ k ∈ new, s.cache.mapped.find? k = none := by
  cases he with
  | @move t r p =>
    refine ⟨p.makes s.cache, rfl, ?_⟩
    unfold Call.makes
    split
    · split
      · rename_i hnone
        simpa using hnone
      · simp
    · simp
  | answer => exact ⟨[], by simp, by simp, by simp⟩
  | _ => exact ⟨[], by simp, by simp, by simp⟩

theorem newest_step (h : s.Sound) (ho : s.Owned) (he : Step s e s')
    (hm : s'.cache.mapped.find? k = some i) (hj : s'.keys[j]? = some k) : j ≤ i := by
  obtain ⟨new, hnew, hone, habsent⟩ := keys_step he
  rw [hnew] at hj
  have hlen := (List.getElem?_eq_some_iff.1 hj).1
  rw [List.length_append] at hlen
  rcases mapped_step h he hm with hold | rfl
  · by_cases hlt : j < s.keys.length
    · rw [List.getElem?_append_left hlt] at hj
      exact ho.newest k i j hold hj
    · rw [List.getElem?_append_right (Nat.le_of_not_lt hlt)] at hj
      have hnone := habsent k (List.mem_of_getElem? hj)
      rw [hold] at hnone
      cases hnone
  · omega

/-- A call that has found a slot had found it before, or finds it now as the one that its subscriber
is mapped to. -/
theorem found_step (he : Step s e s') (hp : s'.calls t = some p)
    (hi : p.place.slot? = some i) :
    (∃ q, s.calls t = some q ∧ q.place.slot? = some i) ∨
      ∃ k, s'.cache.mapped.find? k = some i := by
  have hkept : ∀ u r, (s.setCall u r).calls t = some p → u ≠ t →
      ∃ q, s.calls t = some q ∧ q.place.slot? = some i := by
    intro u r hu hne
    simp only [setCall, if_neg (Ne.symm hne)] at hu
    exact ⟨p, hu, hi⟩
  cases he with
  | @begin u r _ hr =>
    by_cases hu : u = t
    · subst hu
      obtain rfl : ⟨r, r⟩ = p := by simpa [setCall] using hp
      cases r with
      | acquire | reset | evict | peek => cases hi
      | _ => cases hr
    · exact Or.inl (hkept u _ hp hu)
  | @move u r q q' c hq hc =>
    by_cases hu : u = t
    · subst hu
      obtain rfl : ⟨r, q'⟩ = p := by simpa [setCall] using hp
      cases Cache.stepped hc (by simp) with
      | found hm =>
        obtain rfl := Option.some.inj hi
        exact Or.inr ⟨_, hm⟩
      | @made k =>
        obtain rfl := Option.some.inj hi
        exact Or.inr ⟨k, by rw [Assoc.find?_put, if_pos rfl]⟩
      | @known _ _ _ n hm hplace =>
        have hslot : q'.slot? = some n := by
          rcases hplace with ⟨-, rfl⟩ | ⟨-, rfl⟩ | ⟨-, rfl⟩ <;> rfl
        obtain rfl := Option.some.inj (hslot.symm.trans hi)
        exact Or.inr ⟨_, hm⟩
      | _ => cases hi
    · exact Or.inl (hkept u _ hp hu)
  | @answer u =>
    by_cases hu : u = t
    · subst hu
      simp [setCall] at hp
    · exact Or.inl (hkept u _ (by simpa using hp) hu)
  | _ => exact Or.inl ⟨p, hp, hi⟩

/-- A call has found a slot of the subscriber that it names. -/
theorem key_of_found (h : s.Sound) (hp : s.calls t = some p) (hi : p.place.slot? = some i) :
    ∃ k, p.request.key? = some k ∧ s.keys[i]? = some k := by
  cases h.fits t p hp with
  | acquireSlot hk | resetSlot hk | evictSlot hk | peekSlot hk =>
    obtain rfl := Option.some.inj hi
    exact ⟨_, rfl, hk⟩
  | _ => cases hi

/-- A thread that is in a call was given no lease just now. -/
theorem grants_pending (h : s.Sound) (he : Step s e s') (hp : s'.calls t = some p)
    (hg : g ∈ s'.grants) (ht : g.thread = t) : g ∈ s.grants := by
  rcases given_step h he hg with hold | ⟨hnew, -⟩
  · exact hold
  · have hevent := hnew.event
    subst ht hevent
    rw [idle_of_answered he] at hp
    cases hp

theorem later_step (h : s.Sound) (ho : s.Owned) (he : Step s e s') (hp : s'.calls t = some p)
    (hi : p.place.slot? = some i) (hg : g ∈ s'.grants) (ht : g.thread = t)
    (hk : s'.keys[i]? = some g.key) : g.slot ≤ i := by
  have hgrant := grants_pending h he hp hg ht
  rcases found_step he hp hi with ⟨q, hq, hqi⟩ | ⟨k, hm⟩
  · obtain ⟨j, -, hj⟩ := key_of_found h hq hqi
    obtain rfl := Option.some.inj ((key_step he hj).symm.trans hk)
    exact ho.later t q i hq hqi g hgrant ht hj
  · have hsame := (orderly_step h he).mapped k i hm
    obtain rfl := Option.some.inj (hsame.symm.trans hk)
    exact newest_step h ho he hm (key_step he (h.keyed g hgrant))

theorem owned_step (h : s.Sound) (ho : s.Owned) (he : Step s e s') : s'.Owned where
  leased _ _ hi := leased_step h ho he hi
  newest _ _ _ hm hj := newest_step h ho he hm hj
  later _ _ _ hp hi _ hg ht hk := later_step h ho he hp hi hg ht hk

theorem owned_empty : ({} : Threads).Owned where
  leased i t hi := by simp [Cache.slot] at hi
  newest k i j hm := by simp at hm
  later t p i hp := by cases hp

/-- A thread waits for one slot at a time. -/
theorem awaits_unique (ha : s.Awaits t i) (ha' : s.Awaits t j) : i = j := by
  obtain ⟨p, hp, hi, -⟩ := ha
  obtain ⟨q, hq, hj, -⟩ := ha'
  obtain rfl := Option.some.inj (hp.symm.trans hq)
  exact Option.some.inj (hi.symm.trans hj)

/-- Who waits for a slot that it holds itself asks for another lease on it. -/
theorem awaits_own (h : s.Sound) (ha : s.Awaits t i) (hi : (s.cache.slot i).holder = some t) :
    ∃ k, s.calls t = some ⟨.acquire k, .acquireSlot k i⟩ ∧ s.keys[i]? = some k := by
  obtain ⟨⟨r, q⟩, hp, hplace, hblocked⟩ := ha
  have hf := h.fits t _ hp
  cases hf with
  | acquireSlot hk =>
    obtain rfl := Option.some.inj hplace
    exact ⟨_, hp, hk⟩
  | resetSlot | evictSlot | peekSlot =>
    obtain rfl := Option.some.inj hplace
    simp [Cache.step, Cache.visit, hi] at hblocked
  | _ => cases hplace

/-- Only at a slot does a call have to wait. -/
theorem slot_of_blocked {c : Cache} {q : Call} (h : c.step t q = .blocked) :
    ∃ i, q.slot? = some i := by
  cases q with
  | acquireSlot | resetSlot | evictSlot | peekSlot => exact ⟨_, rfl⟩
  | reset | evict | peek =>
    simp only [Cache.step, Cache.look] at h
    split at h <;> cases h
  | _ => cases h

/-- Who waits for a slot waits for someone who holds it. -/
theorem held_of_awaits (ha : s.Awaits t i) : ∃ u, (s.cache.slot i).holder = some u := by
  obtain ⟨⟨r, q⟩, -, hplace, hblocked⟩ := ha
  cases hh : (s.cache.slot i).holder with
  | some u => exact ⟨u, rfl⟩
  | none =>
    cases q with
    | acquireSlot =>
      obtain rfl := Option.some.inj hplace
      simp only [Cache.step, Cache.visit, hh] at hblocked
      split at hblocked <;> cases hblocked
    | resetSlot | evictSlot | peekSlot =>
      obtain rfl := Option.some.inj hplace
      simp [Cache.step, Cache.visit, hh] at hblocked
    | _ => cases hplace

end Threads
end DurableTopic.Cursor

import DurableTopic.Proofs.Exclusion
/-! Where cursors come from: what is shown from a slot was stored in it last, and what is stored in
a slot after its eviction is shown to nobody else. -/
namespace DurableTopic.Cursor

/-- Something is stored in a slot. -/
def Event.fills (i : Nat) : Event → Prop
  | .stored _ g _ => g.slot = i
  | _ => False

/-- What was last stored in a slot since a state: the mark, the lease, and the state in which that
happened. -/
def Stored (s₀ : Threads) (tr : List Event) (s : Threads) (i : Nat) (g : Grant) (w : Watermark)
    (m : Threads) : Prop :=
  ∃ before u after, tr = before ++ .stored u g w :: after ∧ g.slot = i ∧
    (∀ e ∈ after, ¬ e.fills i) ∧ Run s₀ before m ∧ Run m (.stored u g w :: after) s

variable {s₀ s s' m : Threads} {tr tr' : List Event} {e : Event} {i : Nat} {g : Grant}
  {w : Watermark} {k : SubscriberKey} {x y : Slot} {t u : Thread}

namespace Threads

theorem stored_now (hr : Run s₀ tr s) (he : Step s (.stored u g w) s') :
    Stored s₀ (tr ++ [.stored u g w]) s' g.slot g w s :=
  ⟨tr, u, [], rfl, rfl, by simp, hr, run_cons he (.nil s')⟩

theorem stored_snoc (h : Stored s₀ tr s i g w m) (he : Step s e s') (hf : ¬ e.fills i) :
    Stored s₀ (tr ++ [e]) s' i g w m := by
  obtain ⟨before, u, after, rfl, hi, hafter, hr, hrest⟩ := h
  refine ⟨before, u, after ++ [e], by simp, hi, ?_, hr, hrest.snoc he⟩
  simpa [or_imp, forall_and] using ⟨hafter, hf⟩

/-- A cursor in a slot was there before, or is just stored. -/
theorem cursor_step (h : s.Sound) (he : Step s e s') (hw : (s'.cache.slot i).watermark = some w) :
    (s.cache.slot i).watermark = some w ∧ ¬ e.fills i ∨
      ∃ u, ∃ g ∈ s.grants, e = .stored u g w ∧ g.slot = i := by
  have hc := change h he i
  generalize s'.cache.slot i = y at hc hw
  generalize s.cache.slot i = x at hc
  cases hc with
  | none hne =>
    refine Or.inl ⟨hw, fun hf => hne ?_⟩
    cases e with
    | stored => exact congrArg some hf
    | _ => cases hf
  | lease => exact Or.inl ⟨hw, id⟩
  | forget =>
    unfold Slot.forgotten at hw
    split at hw
    · cases hw
    · exact Or.inl ⟨hw, id⟩
  | evict =>
    unfold Slot.evicted at hw
    split at hw
    · cases hw
    · exact Or.inl ⟨hw, id⟩
  | keep hg =>
    cases he with
    | store _ hmem => exact Or.inr ⟨_, _, hmem, by rw [Option.some.inj hw], hg⟩
  | release =>
    simp only [Slot.released] at hw
    split at hw
    · cases hw
    · exact Or.inl ⟨hw, id⟩

theorem stored_step (h : s.Sound) (hr : Run s₀ tr s) (he : Step s e s')
    (hw : (s'.cache.slot i).watermark = some w)
    (hs : (s.cache.slot i).watermark = some w → ∃ g m, g ∈ m.grants ∧ Stored s₀ tr s i g w m) :
    ∃ g m, g ∈ m.grants ∧ Stored s₀ (tr ++ [e]) s' i g w m := by
  rcases cursor_step h he hw with ⟨hold, hf⟩ | ⟨u, g, hg, rfl, rfl⟩
  · obtain ⟨g, m, hg, hs⟩ := hs hold
    exact ⟨g, m, hg, stored_snoc hs he hf⟩
  · exact ⟨g, s, hg, stored_now hr he⟩

/-- Every cursor in a slot was stored there. -/
theorem stored_run (hr : Run {} tr s) (hw : (s.cache.slot i).watermark = some w) :
    ∃ g m, g ∈ m.grants ∧ Stored {} tr s i g w m := by
  generalize h₀ : ({} : Threads) = s₀ at hr
  induction hr generalizing w with
  | nil =>
    subst h₀
    simp [Cache.slot] at hw
  | snoc hr he ih =>
    subst h₀
    exact stored_step (sound_run hr sound_empty) hr he hw ih

theorem givenUp_run (h : s.Sound) (hr : Run s tr s') (hi : (s.cache.slot i).GivenUp) :
    (s'.cache.slot i).GivenUp ∧ ∀ g ∈ s'.grants, g.slot = i → g ∈ s.grants := by
  induction hr with
  | nil => exact ⟨hi, fun _ hg _ => hg⟩
  | snoc hr he ih =>
    obtain ⟨hup, hold⟩ := ih
    have hs := sound_run hr h
    refine ⟨givenUp_step hs he hup, fun g hg hgi => hold g ?_ hgi⟩
    exact grants_givenUp hs he (hgi ▸ hup) hg

/-- What is stored after the eviction stays between the lease and its thread. -/
theorem unmarked_of_shown (hr : Run {} tr s) (he : Step s e s') (hw : e.shows k = some (i, w)) :
    ∃ g m, Stored {} tr s i g w m ∧
      ((m.cache.slot i).pendingEvict = false ∨ e.reader = some g) := by
  have hs := sound_run hr sound_empty
  obtain ⟨-, hmark, hshown⟩ := shown_step hs he hw
  obtain ⟨g, m, hg, hst⟩ := stored_run hr hmark
  refine ⟨g, m, hst, ?_⟩
  obtain ⟨before, u, after, -, hi, -, hbefore, hafter⟩ := hst
  cases hev : (m.cache.slot i).pendingEvict with
  | false => exact Or.inl rfl
  | true =>
    have hm := sound_run hbefore sound_empty
    obtain ⟨hup, hold⟩ := givenUp_run hm hafter (Or.inr hev)
    rcases hshown with ⟨g', hg', hreader, hi'⟩ | ⟨-, hlive, -⟩
    · refine Or.inr ?_
      rw [hreader, hm.apart g' (hold g' hg' hi') g hg (hi'.trans hi.symm)]
    · exact absurd hup hlive

/-- Whatever threads do with a cache, each slot has at most one lease; no lease is given on, or
kept on, a retired slot; a slot that is not given up is the one that its subscriber is mapped to,
and the only such slot of that subscriber; and what is shown from a slot is what was last stored in
it, at a time when it was not marked for eviction unless it is shown through the very lease through
which it was stored. -/
theorem slots_exclusive (h : Run {} tr s) :
    (∀ g ∈ s.grants, ∀ g' ∈ s.grants, g.slot = g'.slot → g = g') ∧
    (∀ g ∈ s.grants, (s.cache.slot g.slot).holder = some g.thread ∧
      (s.cache.slot g.slot).retired = false) ∧
    (∀ e s' g, Step s e s' → g ∈ s'.grants → g ∉ s.grants →
      (s.cache.slot g.slot).retired = false) ∧
    (∀ i < s.cache.slots.length, ¬ (s.cache.slot i).GivenUp →
      ∃ k, s.keys[i]? = some k ∧ s.cache.mapped.find? k = some i) ∧
    (∀ i j k, s.keys[i]? = some k → s.keys[j]? = some k → ¬ (s.cache.slot i).GivenUp →
      ¬ (s.cache.slot j).GivenUp → i = j) ∧
    ∀ e s' k i w, Step s e s' → e.shows k = some (i, w) →
      ∃ g m, Stored {} tr s i g w m ∧
        ((m.cache.slot i).pendingEvict = false ∨ e.reader = some g) := by
  have hs := sound_run h sound_empty
  refine ⟨hs.apart, fun g hg => ?_, fun e s' g he hg hnew => ?_, fun i hi hup => ?_,
    fun i j k hi hj hup hup' => ?_, fun e s' k i w he hw => unmarked_of_shown h he hw⟩
  · exact ⟨hs.held g hg, Cache.not_retired_of_held hs.orderly (hs.held g hg)⟩
  · exact ((given_step hs he hg).resolve_left hnew).1.fresh
  · have hk := List.getElem?_eq_getElem (hs.orderly.made.symm ▸ hi : i < s.keys.length)
    exact ⟨_, hk, hs.orderly.current _ i hk hup⟩
  · have hm := hs.orderly.current k i hi hup
    exact Option.some.inj (hm.symm.trans (hs.orderly.current k j hj hup'))

/-- A thread evicts the slot that it holds and stores in it once more. Meanwhile another thread is
given a lease on a new slot, stores in it and is about to peek. -/
def evictAndStore : List Choice :=
  [.call "a" (.acquire ⟨"A", none⟩), .store 0 ⟨1, 0⟩, .call "a" (.evict ⟨"A", none⟩),
    .store 0 ⟨2, 0⟩, .call "b" (.acquire ⟨"A", none⟩), .store 1 ⟨3, 0⟩,
    .call "b" (.peek ⟨"A", none⟩) 1]

theorem late_mark_exclusive :
    let s := (({} : Threads).play evictAndStore).2
    s.grants.map (·.slot) = [1, 0] ∧ (s.cache.slot 0).watermark = some ⟨2, 0⟩ ∧
      (s.cache.slot 0).pendingEvict ∧ (∀ g ∈ s.grants, (s.cache.slot g.slot).retired = false) ∧
      ∃ g m, Stored {} (({} : Threads).play evictAndStore).1 s 1 g ⟨3, 0⟩ m ∧
        (m.cache.slot 1).pendingEvict = false := by
  intro s
  obtain ⟨-, hheld, -, -, -, hshown⟩ := slots_exclusive (play_run (s := {}) evictAndStore)
  have hpeek : s.go "b" = some (.answered "b" (.peek ⟨"A", none⟩) (.peekSlot 1)
      (.shown (some ⟨3, 0⟩)), ((s.go "b").map (·.2)).getD s) := rfl
  obtain ⟨g, m, hst, hev | hread⟩ := hshown _ _ ⟨"A", none⟩ 1 ⟨3, 0⟩ (go_step hpeek) rfl
  · exact ⟨by decide +kernel, by decide +kernel, by decide +kernel, fun g hg => (hheld g hg).2,
      g, m, hst, hev⟩
  · cases hread

end Threads
end DurableTopic.Cursor

import DurableTopic.Proofs.Concurrent
/-! Passes of one subscriber keep apart, unless a listener deletes the subscriber in the middle of
one. -/
namespace DurableTopic.Store

open Cursor (Thread)

namespace Concurrent

variable {s : Concurrent} {tr : List Event} {t u : Thread} {f g : Frame} {i j : Nat}
  {k : SubscriberKey}

theorem key_of_pass (hs : s.Sound tr) (hf : f ∈ s.store.stack t) (hk : f.request.batches k)
    (hi : f.stage.lease = some i) : s.threads.keys[i]? = some k := by
  obtain ⟨g, hg, -, rfl, hb⟩ := hs.granted t f hf i hi
  rw [← Request.batches_unique hb hk]
  exact hs.threads.keyed g hg

theorem deleted_of_givenUp (hs : s.Sound tr) (hf : f ∈ s.store.stack t)
    (hk : f.request.batches k) (hi : f.stage.lease = some i)
    (hup : (s.threads.cache.slot i).GivenUp) : Deleted k t f tr := by
  obtain ⟨k', hk', hd⟩ := hs.marked t f hf i hi hup
  rwa [Request.batches_unique hk hk']

/-- Two passes of one subscriber hold different slots, and the listener of one of them has asked to
delete the subscriber, which is what lets new passes have a new slot. So of the passes whose
listeners have not done so, at most one is in progress. -/
theorem passes_apart {s₀ : System} (h : s₀.Opened) (hr : Run ⟨s₀, {}⟩ tr s)
    (hf : f ∈ s.store.stack t) (hg : g ∈ s.store.stack u) (hne : f.number ≠ g.number)
    (hk : f.request.batches k) (hk' : g.request.batches k) (hi : f.stage.lease = some i)
    (hj : g.stage.lease = some j) : i ≠ j ∧ (Deleted k t f tr ∨ Deleted k u g tr) := by
  have hs := sound_run h hr
  have hij : i ≠ j := by
    rintro rfl
    exact hne (hs.unshared t u f hf g hg i hi hj)
  refine ⟨hij, ?_⟩
  by_cases hup : (s.threads.cache.slot i).GivenUp
  · exact Or.inl (deleted_of_givenUp hs hf hk hi hup)
  by_cases hup' : (s.threads.cache.slot j).GivenUp
  · exact Or.inr (deleted_of_givenUp hs hg hk' hj hup')
  -- Both slots would be the one that the subscriber is mapped to.
  have hm := hs.threads.orderly.current k i (key_of_pass hs hf hk hi) hup
  have hm' := hs.threads.orderly.current k j (key_of_pass hs hg hk' hj) hup'
  exact absurd (Option.some.inj (hm.symm.trans hm')) hij

/-- While a listener is offered a message, it deletes its subscriber, registers it again and starts
another pass. -/
def passWithinPass : List Choice :=
  [.call "main" (.publish (System.note "orders" "m1")),
    .call "main" (.subscribe { destination := "orders", key := replayed } true),
    .call "main" replaying, .hear "main" (.ok true),
    .call "main" (.unsubscribe replayed),
    .call "main" (.subscribe { destination := "orders", key := replayed } true),
    .call "main" replaying]

/-- The nested pass and the outer one, each with its lease. -/
theorem passWithinPass_run : ∃ s f g,
    Run ⟨System.fresh "orders", {}⟩ ((System.fresh "orders").play passWithinPass).1 s ∧
      s.store.stack "main" = [f, g] ∧
      (f.number = 5 ∧ f.request = replaying ∧ f.stage.lease = some 1) ∧
      g.number = 2 ∧ g.request = replaying ∧ g.stage.lease = some 0 := by
  have hframes : (((System.fresh "orders").play passWithinPass).2.stack "main").map
      (fun f => (f.number, f.request, f.stage.lease)) =
        [(5, replaying, some 1), (2, replaying, some 0)] := by decide +kernel
  obtain ⟨s, hr, -, hs⟩ := run_atomic (System.opened_fresh "orders")
    (System.play_run passWithinPass)
  rw [← hs] at hframes
  obtain ⟨f, fs, hst, hf, hfs⟩ := List.map_eq_cons_iff.1 hframes
  obtain ⟨g, gs, rfl, hg, hgs⟩ := List.map_eq_cons_iff.1 hfs
  obtain rfl := List.map_eq_nil_iff.1 hgs
  exact ⟨s, f, g, hr, hst, by simpa using hf, by simpa using hg⟩

theorem nested_pass_overlaps : ∃ s f g, (System.fresh "orders").Opened ∧
    Run ⟨System.fresh "orders", {}⟩ ((System.fresh "orders").play passWithinPass).1 s ∧
      f ∈ s.store.stack "main" ∧ g ∈ s.store.stack "main" ∧ f.number ≠ g.number ∧
      f.request.batches replayed ∧ g.request.batches replayed ∧
      f.stage.lease.isSome ∧ g.stage.lease.isSome := by
  obtain ⟨s, f, g, hr, hst, ⟨hn, hreq, hl⟩, hn', hreq', hl'⟩ := passWithinPass_run
  refine ⟨s, f, g, System.opened_fresh "orders", hr, by simp [hst], by simp [hst], by omega, ?_⟩
  rw [hreq, hreq', hl, hl']
  exact ⟨by decide, by decide, rfl, rfl⟩

theorem nested_pass_apart : ∃ s f g,
    Run ⟨System.fresh "orders", {}⟩ ((System.fresh "orders").play passWithinPass).1 s ∧
      f ∈ s.store.stack "main" ∧ g ∈ s.store.stack "main" ∧ f.number = 5 ∧ g.number = 2 ∧
      (1 : Nat) ≠ 0 ∧
      (Deleted replayed "main" f ((System.fresh "orders").play passWithinPass).1 ∨
        Deleted replayed "main" g ((System.fresh "orders").play passWithinPass).1) := by
  obtain ⟨s, f, g, hr, hst, ⟨hn, hreq, hl⟩, hn', hreq', hl'⟩ := passWithinPass_run
  have hf : f ∈ s.store.stack "main" := by simp [hst]
  have hg : g ∈ s.store.stack "main" := by simp [hst]
  obtain ⟨hslots, hdel⟩ := passes_apart (k := replayed) (System.opened_fresh "orders") hr hf hg
    (by omega) (by rw [hreq]; decide) (by rw [hreq']; decide) hl hl'
  exact ⟨s, f, g, hr, hf, hg, hn, hn', hslots, hdel⟩

end Concurrent
end DurableTopic.Store

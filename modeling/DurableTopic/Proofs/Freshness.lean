import DurableTopic.Proofs.Leases
/-! A reset or an eviction leaves nothing behind: what is shown afterwards was stored through a
lease that was given after the call had begun. -/
namespace DurableTopic.Cursor

/-- The slots of its subscriber that a reset or an eviction has not dealt with. -/
def Call.left : Call → Nat → Prop
  | .reset _, _ | .evict _, _ => True
  | .resetSlot i, j | .evictSlot _ i, j => j = i
  | _, _ => False

/-- What is in a slot came through leases with these numbers, and no other lease is on it. -/
def Fresh (n : Nat) (s₀ : Threads) (tr : List Event) (s : Threads) (i : Nat) : Prop :=
  (∀ w, (s.cache.slot i).watermark = some w →
    ∃ g m, n ≤ g.number ∧ Stored s₀ tr s i g w m) ∧ ∀ g ∈ s.grants, g.slot = i → n ≤ g.number

/-- What is in a slot is fresh, or is shown to nobody who does not hold it. -/
def Safe (n : Nat) (s₀ : Threads) (tr : List Event) (s : Threads) (i : Nat) : Prop :=
  (s.cache.slot i).GivenUp ∨ (s.cache.slot i).pendingReset ∨ Fresh n s₀ tr s i

/-- All slots of a subscriber are safe, but for some. -/
def Clear (n : Nat) (k : SubscriberKey) (s₀ : Threads) (tr : List Event) (s : Threads)
    (but : Nat → Prop) : Prop :=
  ∀ i, s.keys[i]? = some k → ¬ but i → Safe n s₀ tr s i

variable {s₀ s₁ s₂ s₃ s₄ s s' m : Threads} {tr tr₀ tr' : List Event} {e : Event} {i n : Nat}
  {g : Grant} {w : Watermark} {k : SubscriberKey} {x y : Slot} {t u : Thread} {r p p' : Call}
  {a : Answer} {c : Cache} {but : Nat → Prop} {keys : List SubscriberKey} {q : Progress}

theorem Event.Change.pendingReset (h : e.Change i x y) (hx : x.pendingReset) :
    y.pendingReset ∨ y.watermark = .none ∧ ∃ g, e = .released g ∧ g.slot = i := by
  cases h with
  | none => exact Or.inl hx
  | lease => exact Or.inl hx
  | forget =>
    refine Or.inl ?_
    unfold Slot.forgotten
    split
    · exact hx
    · rfl
  | evict =>
    refine Or.inl ?_
    unfold Slot.evicted
    split <;> exact hx
  | keep => exact Or.inl hx
  | release hg => exact Or.inr ⟨by simp [Slot.released, hx], _, rfl, hg⟩

namespace Threads

theorem given_above (h : s.Sound) (hn : n ≤ s.count) (he : Step s e s')
    (hold : ∀ g ∈ s.grants, g.slot = i → n ≤ g.number) :
    ∀ g ∈ s'.grants, g.slot = i → n ≤ g.number := by
  intro g hg hi
  rcases given_step h he hg with hmem | ⟨hnew, -⟩
  · exact hold g hmem hi
  · rwa [hnew.number]

theorem fresh_step (h : s.Sound) (hn : n ≤ s.count) (hr : Run s₀ tr s) (he : Step s e s')
    (hf : Fresh n s₀ tr s i) : Fresh n s₀ (tr ++ [e]) s' i := by
  refine ⟨fun w hw => ?_, given_above h hn he hf.2⟩
  rcases cursor_step h he hw with ⟨hold, hfill⟩ | ⟨u, g, hg, rfl, rfl⟩
  · obtain ⟨g, m, hg, hs⟩ := hf.1 w hold
    exact ⟨g, m, hg, stored_snoc hs he hfill⟩
  · exact ⟨g, s, hf.2 g hg rfl, stored_now hr he⟩

/-- A slot that is empty and not leased is fresh. -/
theorem fresh_of_cold (hw : (s.cache.slot i).watermark = none) (hg : ∀ g ∈ s.grants, g.slot ≠ i) :
    Fresh n s₀ tr s i :=
  ⟨fun w hx => by simp [hw] at hx, fun g hmem hi => absurd hi (hg g hmem)⟩

theorem safe_step (h : s.Sound) (hn : n ≤ s.count) (hr : Run s₀ tr s) (he : Step s e s')
    (hi : Safe n s₀ tr s i) : Safe n s₀ (tr ++ [e]) s' i := by
  rcases hi with hup | hreset | hf
  · exact Or.inl (givenUp_step h he hup)
  · rcases (change h he i).pendingReset hreset with hreset | ⟨hcold, g, rfl, hg⟩
    · exact Or.inr (Or.inl hreset)
    · refine Or.inr (Or.inr (fresh_of_cold hcold fun g' hg' hi' => ?_))
      cases he with
      | release _ hmem =>
        obtain ⟨hold, hne⟩ := List.mem_filter.1 hg'
        exact of_decide_eq_true hne (h.apart g' hold g hmem (hi'.trans hg.symm))
  · exact Or.inr (Or.inr (fresh_step h hn hr he hf))

theorem key_old (he : Step s e s') (hk : s'.keys[i]? = some k) :
    s.keys[i]? = some k ∨ s.keys.length ≤ i := by
  by_cases hi : i < s.keys.length
  · have hold := List.getElem?_eq_getElem hi
    exact Or.inl (hold.trans ((key_step he hold).symm.trans hk))
  · exact Or.inr (Nat.le_of_not_lt hi)

theorem clear_step (h : s.Sound) (hn : n ≤ s.count) (hr : Run s₀ tr s) (he : Step s e s')
    (hc : Clear n k s₀ tr s but) : Clear n k s₀ (tr ++ [e]) s' but := by
  intro i hk hi
  refine safe_step h hn hr he ?_
  rcases key_old he hk with hold | hout
  · exact hc i hold hi
  · have hslot := Cache.slot_outside (h.orderly.made ▸ hout)
    refine Or.inr (Or.inr (fresh_of_cold (by rw [hslot]) fun g hg hgi => ?_))
    have hh := h.held g hg
    simp [hgi, hslot] at hh

theorem not_granted_of_free (h : s.Sound) (hfree : (s.cache.slot i).holder = none) :
    ∀ g ∈ s.grants, g.slot ≠ i := by
  rintro g hg rfl
  simp [h.held g hg] at hfree

/-- A slot that a subscriber is not mapped to is given up. -/
theorem givenUp_of_unmapped (h : s.Sound) (hk : s.keys[i]? = some k)
    (hm : s.cache.mapped.find? k ≠ some i) : (s.cache.slot i).GivenUp :=
  Classical.byContradiction fun hup => hm (h.orderly.current k i hk hup)

theorem clear_of_unmapped (h : s.Sound)
    (hm : ∀ i, s.cache.mapped.find? k = some i → but i) : Clear n k s₀ tr s but :=
  fun i hk hi => Or.inl (givenUp_of_unmapped h hk fun hm' => hi (hm i hm'))

theorem safe_forgotten (h : s.Sound) (hx : s.cache.slot i = x.forgotten) : Safe n s₀ tr s i := by
  unfold Slot.forgotten at hx
  split at hx
  · rename_i hfree
    refine Or.inr (Or.inr (fresh_of_cold (by rw [hx]) (not_granted_of_free h ?_)))
    rwa [hx]
  · exact Or.inr (Or.inl (by rw [hx]))

theorem forgotten_of_answer (h : s.Sound) (he : Step s (.answered t r (.resetSlot i) .done) s') :
    s'.cache.slot i = (s.cache.slot i).forgotten := by
  have hc := change h he i
  generalize s'.cache.slot i = y at hc
  generalize s.cache.slot i = x at hc
  cases hc with
  | none hne => exact absurd rfl hne
  | forget => rfl

theorem evicted_of_move (h : s.Sound) (he : Step s (.moved t r (.evictSlot k i)) s') :
    s'.cache.slot i = (s.cache.slot i).evicted := by
  have hc := change h he i
  generalize s'.cache.slot i = y at hc
  generalize s.cache.slot i = x at hc
  cases hc with
  | none hne => exact absurd rfl hne
  | evict => rfl

/-- A call that takes a step has dealt with all slots but those that are left for the next one. -/
theorem clear_move (h : s.Sound) (hn : n ≤ s.count) (hr : Run s₀ tr s)
    (he : Step s (.moved t r p) s') (hreq : r = .reset k ∨ r = .evict k)
    (hf : Pending.Fits s.cache s.keys ⟨r, p⟩) (hs : s.cache.Stepped t p (.next c p'))
    (hc : Clear n k s₀ tr s p.left) : Clear n k s₀ (tr ++ [.moved t r p]) s' p'.left := by
  have hstep := clear_step h hn hr he hc
  cases hs with
  | found => cases hf; simp at hreq
  | made => cases hf; simp at hreq
  | late => cases hf; simp at hreq
  | again => cases hf; simp at hreq
  | known hm hp =>
    refine clear_step h hn hr he (clear_of_unmapped h fun j hj => ?_)
    rcases hp with ⟨rfl, rfl⟩ | ⟨rfl, rfl⟩ | ⟨rfl, rfl⟩ <;> cases hf <;>
      simp_all [Call.left]
  | @evicted j i =>
    cases hf with
    | evictSlot =>
      intro n hk _
      by_cases hi : n = i
      · subst hi
        exact Or.inl (evicted_of_move h he ▸ Slot.givenUp_evicted)
      · exact hstep n hk hi

theorem clear_answer (h : s.Sound) (hn : n ≤ s.count) (hr : Run s₀ tr s)
    (he : Step s (.answered t r p a) s') (hreq : r = .reset k ∨ r = .evict k)
    (hf : Pending.Fits s.cache s.keys ⟨r, p⟩) (hs : s.cache.Stepped t p (.finished c a))
    (hc : Clear n k s₀ tr s p.left) :
    Clear n k s₀ (tr ++ [.answered t r p a]) s' fun _ => False := by
  have hstep := clear_step h hn hr he hc
  cases hs with
  | leased => cases hf; simp at hreq
  | unknown hm hp =>
    refine clear_step h hn hr he (clear_of_unmapped h fun j hj => ?_)
    rcases hp with ⟨rfl, -⟩ | ⟨rfl, -⟩ | ⟨rfl, -⟩ <;> cases hf <;> simp_all
  | @forgotten i =>
    intro j hk _
    by_cases hi : j = i
    · subst hi
      exact safe_forgotten (sound_step h he) (forgotten_of_answer h he)
    · exact hstep j hk hi
  | unmapped => exact hstep
  | shown => cases hf; simp at hreq

theorem call_step (h : s.Sound) (hn : n ≤ s.count) (hr : Run s₀ tr s) (he : Step s e s')
    (hreq : r = .reset k ∨ r = .evict k) (hp : s.calls t = some ⟨r, p⟩)
    (hc : Clear n k s₀ tr s p.left) :
    (∃ p', s'.calls t = some ⟨r, p'⟩ ∧ (∀ p a, e ≠ .answered t r p a) ∧
        Clear n k s₀ (tr ++ [e]) s' p'.left) ∨ Clear n k s₀ (tr ++ [e]) s' fun _ => False := by
  have hf := h.fits t _ hp
  have hstep := clear_step h hn hr he hc
  cases he with
  | @begin u _ hidle =>
    have hu : t ≠ u := by
      rintro rfl
      simp [hp] at hidle
    exact Or.inl ⟨p, by simpa [setCall, hu] using hp, by simp, hstep⟩
  | @move u r' q q' c' hq hs =>
    by_cases hu : t = u
    · subst hu
      obtain ⟨rfl, rfl⟩ : r = r' ∧ p = q := by simpa using hp.symm.trans hq
      exact Or.inl ⟨q', by simp [setCall], by simp,
        clear_move h hn hr (.move hq hs) hreq hf (Cache.stepped hs (by simp)) hc⟩
    · exact Or.inl ⟨p, by simpa [setCall, hu] using hp, by simp, hstep⟩
  | @answer u r' q c' a hq hs =>
    by_cases hu : t = u
    · subst hu
      obtain ⟨rfl, rfl⟩ : r = r' ∧ p = q := by simpa using hp.symm.trans hq
      exact Or.inr
        (clear_answer h hn hr (.answer hq hs) hreq hf (Cache.stepped hs (by simp)) hc)
    · exact Or.inl ⟨p, by simpa [setCall, hu] using hp, by simp [Ne.symm hu], hstep⟩
  | store => exact Or.inl ⟨p, hp, by simp, hstep⟩
  | look => exact Or.inl ⟨p, hp, by simp, hstep⟩
  | release => exact Or.inl ⟨p, hp, by simp, hstep⟩

/-- A call is in progress and has dealt with all slots but those that it has left, or all slots are
dealt with. -/
theorem call_run (h : s.Sound) (hreq : r = .reset k ∨ r = .evict k)
    (hb : Step s (.begun t r) s₁) (hr : Run s₁ tr s') :
    (∃ p, s'.calls t = some ⟨r, p⟩ ∧ (∀ p a, .answered t r p a ∉ tr) ∧
        Clear s.count k s₁ tr s' p.left) ∨
      Clear s.count k s₁ tr s' fun _ => False := by
  have h₁ := sound_step h hb
  have hcount := count_step hb
  induction hr with
  | nil =>
    cases hb
    refine Or.inl ⟨r, by simp [setCall], by simp, fun i _ hi => absurd ?_ hi⟩
    rcases hreq with rfl | rfl <;> trivial
  | snoc hr he ih =>
    have hs := sound_run hr h₁
    have hn := Nat.le_trans hcount (count_run hr)
    rcases ih with ⟨p, hp, hno, hc⟩ | hc
    · rcases call_step hs hn hr he hreq hp hc with ⟨p', hp', hne, hc'⟩ | hc'
      · refine Or.inl ⟨p', hp', fun q a hmem => ?_, hc'⟩
        rcases List.mem_append.1 hmem with hmem | hmem
        · exact hno q a hmem
        · exact hne q a (List.mem_singleton.1 hmem).symm
      · exact Or.inr hc'
    · exact Or.inr (clear_step hs hn hr he hc)

/-- A lease that is given when all slots are dealt with is on a fresh one. -/
theorem fresh_given (h : s.Sound) (hn : n ≤ s.count) (hr : Run s₀ tr s) (he : Step s e s')
    (hc : Clear n k s₀ tr s fun _ => False) (hg : s.Given e g) (hk : g.key = k) :
    Fresh n s₀ (tr ++ [e]) s' g.slot := by
  refine fresh_step h hn hr he ?_
  rcases hc g.slot (hk ▸ hg.key) id with hup | hreset | hf
  · exact absurd hup (not_givenUp_of_free h hg.free hg.fresh)
  · simp [(h.orderly.quiet _ hg.free).1] at hreset
  · exact hf

/-- From when all slots are dealt with, they stay so, and the leases that are given are on fresh
ones. -/
theorem clear_later (h : s.Sound) (hn : n ≤ s.count) (hr : Run s₀ tr s)
    (hc : Clear n k s₀ tr s fun _ => False) (hlater : Run s tr' s') :
    Clear n k s₀ (tr ++ tr') s' (fun _ => False) ∧
      ∀ g ∈ s'.grants, s.count ≤ g.number → g.key = k → Fresh n s₀ (tr ++ tr') s' g.slot := by
  induction hlater with
  | nil =>
    refine ⟨by simpa using hc, fun g hg hge => ?_⟩
    exact absurd (h.numbered g hg) (Nat.not_lt.2 hge)
  | @snoc s' _ tr' _ hlater he ih =>
    obtain ⟨hclear, hfresh⟩ := ih
    have hs := sound_run hlater h
    have hn' := Nat.le_trans hn (count_run hlater)
    have hall := run_trans hr hlater
    rw [← List.append_assoc]
    refine ⟨clear_step hs hn' hall he hclear, fun g hg hge hk => ?_⟩
    rcases given_step hs he hg with hold | ⟨hnew, -⟩
    · exact fresh_step hs hn' hall he (hfresh g hold hge hk)
    · exact fresh_given hs hn' hall he hclear hnew hk

/-- After a reset or an eviction has returned, what is shown for its subscriber, to whoever peeks,
is given a lease or looks through a lease that is given from then on, was stored through a lease
that was given after the call had begun. It does not matter who held which slots meanwhile, and a
thread that holds the slot itself need not have released it. -/
theorem nothing_stale (h : Run {} tr₀ s₀) (hreq : r = .reset k ∨ r = .evict k)
    (hb : Step s₀ (.begun t r) s₁) (hr : Run s₁ tr s₂) (hret : .answered t r p a ∈ tr)
    (hlater : Run s₂ tr' s₃) (he : Step s₃ e s₄) (hw : e.shows k = some (i, w))
    (hnew : ∀ g, e.reader = some g → s₂.count ≤ g.number) :
    ∃ g m, s₀.count ≤ g.number ∧ Stored s₁ (tr ++ tr') s₃ i g w m := by
  have h₀ := sound_run h sound_empty
  have h₂ := sound_run hr (sound_step h₀ hb)
  have hn : s₀.count ≤ s₂.count := Nat.le_trans (count_step hb) (count_run hr)
  have hclear : Clear s₀.count k s₁ tr s₂ fun _ => False :=
    (call_run h₀ hreq hb hr).resolve_left fun ⟨_, _, hno, _⟩ => hno p a hret
  obtain ⟨hc, hfresh⟩ := clear_later h₂ hn hr hclear hlater
  have h₃ := sound_run hlater h₂
  obtain ⟨hk, hmark, ⟨g, hg, hread, rfl⟩ | ⟨-, hup, hreset⟩⟩ := shown_step h₃ he hw
  · have hkey : g.key = k := Option.some.inj ((h₃.keyed g hg).symm.trans hk)
    exact (hfresh g hg (hnew g hread) hkey).1 w hmark
  · rcases hc i hk id with hup' | hreset' | hf
    · exact absurd hup' hup
    · simp [hreset] at hreset'
    · exact hf.1 w hmark

/-- A thread holds the slot of a subscriber, with a cursor in it. -/
def holding : Threads :=
  (({} : Threads).play [.call "a" (.acquire ⟨"A", none⟩), .store 0 ⟨1, 0⟩]).2

/-- Another thread is about to reset the slot. -/
def resetting : Threads :=
  holding.setCall "b" (some ⟨.reset ⟨"A", none⟩, .reset ⟨"A", none⟩⟩)

/-- While it waits, the holder evicts the slot, and a third thread stores a cursor in a new one. -/
def replacing : List Choice :=
  [.goOn "b" 1, .call "a" (.evict ⟨"A", none⟩), .release 0, .call "c" (.acquire ⟨"A", none⟩),
    .store 1 ⟨2, 0⟩, .release 1, .goOn "b"]

theorem replaced_slot_not_stale :
    let s := (resetting.play replacing).2
    let peek := [Choice.call "d" (.peek ⟨"A", none⟩) 1]
    (holding.cache.slot 0).watermark = some ⟨1, 0⟩ ∧
      ∃ g m, 1 ≤ g.number ∧ Stored resetting ((resetting.play replacing).1 ++ (s.play peek).1)
        (s.play peek).2 1 g ⟨2, 0⟩ m := by
  intro s peek
  have hb : Step holding (.begun "b" (.reset ⟨"A", none⟩)) resetting :=
    .begin (by decide +kernel) rfl
  have hret : Event.answered "b" (.reset ⟨"A", none⟩) (.resetSlot 0) .done ∈
      (resetting.play replacing).1 := by decide +kernel
  obtain ⟨s', hpeek⟩ : ∃ s', (s.play peek).2.go "d" = some
      (.answered "d" (.peek ⟨"A", none⟩) (.peekSlot 1) (.shown (some ⟨2, 0⟩)), s') := ⟨_, rfl⟩
  have hcount : holding.count = 1 := by decide +kernel
  obtain ⟨g, m, hg, hst⟩ := nothing_stale (k := ⟨"A", none⟩) (play_run _) (Or.inl rfl) hb
    (play_run replacing) hret (play_run peek) (go_step hpeek) rfl (by simp [Event.reader])
  exact ⟨by decide +kernel, g, m, hcount ▸ hg, hst⟩

end Threads
end DurableTopic.Cursor

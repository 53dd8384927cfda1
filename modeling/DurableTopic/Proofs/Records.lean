import DurableTopic.Proofs.Soundness
/-! What becomes of the record of a subscriber. Its position only moves forward, and only a deletion
removes it. -/
namespace DurableTopic

/-- A key that is kept as it is written. -/
def SubscriberKey.Plain (spell : String → String) (k : SubscriberKey) : Prop := k.spelled spell = k

/-- A record stays, and its position is not behind. -/
def Subscription.Onward (o o' : Option Subscription) : Prop :=
  ∀ x, o = some x → ∃ x', o' = some x' ∧ x.acked.sequence ≤ x'.acked.sequence

open Subscription (Onward)

theorem Subscription.onward_refl (o : Option Subscription) : Onward o o :=
  fun x hx => ⟨x, hx, Int.le_refl _⟩

theorem Subscription.onward_trans {o o' o'' : Option Subscription} (h : Onward o o')
    (h' : Onward o' o'') : Onward o o'' := by
  intro x hx
  obtain ⟨y, hy, hxy⟩ := h x hx
  obtain ⟨z, hz, hyz⟩ := h' y hy
  exact ⟨z, hz, Int.le_trans hxy hyz⟩

namespace Repository.Ledger

variable {spell : String → String} {l l' : Ledger} {k j : SubscriberKey} {c : Call} {a : c.Reply}

theorem advanced_acked {w : Watermark} {s : Subscription} :
    s.acked.sequence ≤ (advanced w s).acked.sequence := by
  unfold advanced
  split
  · rename_i h
    exact Int.le_of_lt ((Watermark.isAhead_iff).1 h)
  · exact Int.le_refl _

/-- A call that deletes no key that is kept as this one. -/
theorem onward_answers (h : l.Answers spell c a l')
    (hc : ∀ d j, c = .delete d j → k.spelled spell ≠ j.spelled spell) :
    Onward (l.record k) (l'.record k) := by
  cases c with
  | append r =>
    rcases h with ⟨x, _, _, _, _, rfl⟩ | ⟨_, rfl⟩ <;> exact Subscription.onward_refl _
  | persist d j w =>
    rcases wrote_or_same h with rfl | rfl
    · intro x hx
      simp only [persist, update, hx]
      split
      · exact ⟨_, rfl, advanced_acked⟩
      · exact ⟨x, rfl, Int.le_refl _⟩
    · exact Subscription.onward_refl _
  | put s retroactive =>
    rcases wrote_or_same h with rfl | rfl
    · intro x hx
      simp only [put, update, hx]
      split
      · exact ⟨_, rfl, Int.le_refl _⟩
      · exact ⟨x, rfl, Int.le_refl _⟩
    · exact Subscription.onward_refl _
  | delete d j =>
    rcases wrote_or_same h with rfl | rfl
    · simp only [delete, update, if_neg (hc d j rfl)]
      exact Subscription.onward_refl _
    · exact Subscription.onward_refl _
  | _ => exact answers_read h rfl ▸ Subscription.onward_refl _

/-- A deletion removes a record or does nothing. -/
theorem record_delete {d : String} {b : (Call.delete d j).Reply}
    (h : l.Answers spell (.delete d j) b l') : l'.record k = l.record k ∨ l'.record k = none := by
  rcases wrote_or_same h with rfl | rfl
  · simp only [delete, update]
    split
    · exact Or.inr rfl
    · exact Or.inl rfl
  · exact Or.inl rfl

theorem onward_evolves {d : String} {r : Store.Request}
    (h : Evolves spell (r.mayCall d) l l')
    (hr : ∀ j, r = .unsubscribe j → k.spelled spell ≠ j.spelled spell) :
    Onward (l.record k) (l'.record k) := by
  induction h with
  | refl => exact Subscription.onward_refl _
  | call _ hc ha ih =>
    refine Subscription.onward_trans ih (onward_answers ha ?_)
    rintro d' j rfl
    refine hr j ?_
    cases r <;> simp_all [Store.Request.mayCall]

theorem record_evolves {d : String}
    (h : Evolves spell (Store.Request.mayCall d (.unsubscribe j)) l l') :
    l'.record k = l.record k ∨ l'.record k = none := by
  induction h with
  | refl => exact Or.inl rfl
  | @call _ _ c _ _ hc ha ih =>
    cases c <;> simp only [Store.Request.mayCall] at hc
    rcases record_delete (k := k) ha with h | h
    · exact h ▸ ih
    · exact Or.inr h

end Repository.Ledger
namespace Store

open Cursor (Thread)
open Repository (Ledger)

variable {k : SubscriberKey} {s s' : System} {tr : List Event} {ev : Event}

/-- In memory every key is kept as it is written. -/
theorem plain_of_memory {h : Host} {m : Repository.Memory.Topics}
    {x : Option Repository.Memory.Transaction} (hm : h.backend.repository = .memory m x) :
    k.Plain h.spell := by
  simp [Host.spell, hm, Repository.spell, SubscriberKey.Plain]

/-- A key whose text is free of NUL is kept as it is written. -/
theorem plain_of_nulFree {h : Host} (hc : Text.NulFree k.client)
    (hn : ∀ n, k.name = some n → Text.NulFree n) : k.Plain h.spell := by
  cases hb : h.backend.repository with
  | memory => exact plain_of_memory hb
  | embedded =>
    have hname : k.name.map Text.beforeNul = k.name := by
      cases hk : k.name with
      | none => rfl
      | some n => simp [Text.beforeNul_eq_self (hn n hk)]
    simp [Host.spell, hb, Repository.spell, SubscriberKey.Plain, SubscriberKey.spelled,
      Text.beforeNul_eq_self hc, hname]

theorem spell_step (hs : s.Sound) (h : Step s ev s') : s'.host.spell = s.host.spell := by
  cases h with
  | ask hst hr => exact (ask_granted hs hst hr).2.1
  | _ => rfl

theorem spell_run (hs : s.Sound) (h : Run Step s tr s') : s'.host.spell = s.host.spell := by
  induction h with
  | nil => rfl
  | snoc h he ih => exact (spell_step (sound_run hs h) he).trans ih

theorem destination_step (hs : s.Sound) (h : Step s ev s') :
    s'.host.destination = s.host.destination := by
  cases h with
  | ask hst hr => exact (ask_granted hs hst hr).1
  | _ => rfl

theorem destination_run (hs : s.Sound) (h : Run Step s tr s') :
    s'.host.destination = s.host.destination := by
  induction h with
  | nil => rfl
  | snoc h he ih => exact (destination_step (sound_run hs h) he).trans ih

/-- Only a commit changes what is committed, by calls of the kind that its call makes. A deletion
that commits has its eviction still ahead. -/
theorem ledger_step (hs : s.Sound) (h : Step s ev s') : s'.host.ledger = s.host.ledger ∨
    ∃ t, ∃ f ∈ s'.stack t, ev = .ask t f.number f.request ⟨.commit, .ok ()⟩ ∧
      (∀ k, f.request = .unsubscribe k → f.stage.forgot) ∧
      Ledger.Evolves s.host.spell (f.request.mayCall s.host.destination) s.host.ledger
        s'.host.ledger := by
  cases h with
  | @ask t n r past e next below a h' hst hr =>
    obtain ⟨hd, -, -, hg⟩ := ask_granted hs hst hr
    have hf := hs.frames t _ (by rw [hst]; exact List.mem_cons_self)
    cases e with
    | begin => exact Or.inl hg.2.1
    | call => exact Or.inl hg.2.1
    | close => exact Or.inl hg.2
    | commit =>
      obtain ⟨-, l, hl, ⟨rfl, hleg, -⟩ | ⟨-, hleg, -⟩⟩ := hg
      · obtain ⟨hp, -, hforgot⟩ := hf.follows.1
        obtain ⟨l', hl', hev⟩ := hf.active hp
        obtain rfl : l' = l := by simpa [hl'] using hl
        refine Or.inr ⟨t, ⟨n, r, past ++ [⟨.commit, .ok ()⟩], next (.ok ())⟩,
          by simp [System.setStack], rfl, fun k hk => ?_, hleg ▸ hev⟩
        rw [stage_snoc]
        exact hforgot k hk
      · exact Or.inl hleg
    | _ => exact Or.inl (ledger_of_backend hg.1 hd).1
  | _ => exact Or.inl rfl

end Store
end DurableTopic

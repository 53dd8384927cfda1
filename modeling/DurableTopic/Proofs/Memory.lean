import DurableTopic.Proofs.Ledger
import DurableTopic.Repository.Memory
/-! The repository in memory answers as a ledger says. Its search by halving finds what a search
from the front finds. -/
namespace DurableTopic.Repository.Memory

/-- The next sequence number is above all that are stored. -/
structure Topic.Sound (t : Topic) : Prop where
  ascending : t.rows.Pairwise fun a b => a.sequence < b.sequence
  positive : ∀ r ∈ t.rows, 0 < r.sequence
  next : ∀ r ∈ t.rows, r.sequence < t.nextSequence
  next_positive : 0 < t.nextSequence

def Topic.ledger (t : Topic) : Ledger := ⟨t.rows, t.get⟩

variable {t : Topic} {k j : SubscriberKey} {w : Watermark} {r : Row}

theorem topic_sound_empty : ({} : Topic).Sound where
  ascending := List.Pairwise.nil
  positive := by simp
  next := by simp
  next_positive := by decide

theorem ledger_sound (h : t.Sound) : t.ledger.Sound := ⟨h.ascending, h.positive⟩

/-- A list that ascends falls into what is at most a number and what is above it. -/
theorem rowsAbove_eq_filter {n : Int} {rows : List Row}
    (h : rows.Pairwise fun a b => a.sequence < b.sequence) :
    rowsAbove n rows = rows.filter fun r => decide (n < r.sequence) := by
  induction rows using rowsAbove.induct n with
  | case1 rows hd =>
    have : rows = [] := by
      have := congrArg List.length hd
      simp only [List.length_drop, List.length_nil] at this
      exact List.length_eq_zero_iff.1 (by omega)
    subst this
    rw [rowsAbove]
    rfl
  | case2 rows r rest hd hlen hn ih =>
    have hsplit := List.take_append_drop (rows.length / 2) rows
    rw [hd] at hsplit
    rw [← hsplit, List.pairwise_append, List.pairwise_cons] at h
    have hrest : (r :: rest).filter (fun r => decide (n < r.sequence)) = r :: rest := by
      rw [List.filter_eq_self]
      intro x hx
      rcases List.mem_cons.1 hx with rfl | hx
      · simpa using hn
      · have := h.2.1.1 x hx
        simp; omega
    have hf := congrArg (List.filter fun r => decide (n < r.sequence)) hsplit
    rw [List.filter_append, hrest] at hf
    rw [rowsAbove]
    split
    · simp_all
    · rename_i r' rest' hd'
      obtain ⟨rfl, rfl⟩ : r' = r ∧ rest' = rest := by simpa [hd] using hd'.symm
      rw [if_pos hn, ih h.1, hf]
  | case3 rows r rest hd hlen hn ih =>
    have hsplit := List.take_append_drop (rows.length / 2) rows
    rw [hd] at hsplit
    rw [← hsplit, List.pairwise_append, List.pairwise_cons] at h
    have hfront : (rows.take (rows.length / 2)).filter (fun r => decide (n < r.sequence)) = [] := by
      rw [List.filter_eq_nil_iff]
      intro x hx
      have := h.2.2 x hx r (by simp)
      simp; omega
    have hf := congrArg (List.filter fun r => decide (n < r.sequence)) hsplit
    rw [List.filter_append, hfront, List.filter_cons_of_neg (by simpa using hn)] at hf
    rw [rowsAbove]
    split
    · simp_all
    · rename_i r' rest' hd'
      obtain ⟨rfl, rfl⟩ : r' = r ∧ rest' = rest := by simpa [hd] using hd'.symm
      rw [if_neg hn, ih h.2.1.2, ← hf, List.nil_append]

theorem shown_always {limit : Nat} {rows : List Row} :
    Visitor.always.shown limit rows = rows.take limit := by
  induction limit generalizing rows with
  | zero => rfl
  | succ n ih =>
    cases rows with
    | nil => rfl
    | cons r rows => exact congrArg (r :: ·) ih

theorem scanAfter_eq {limit : Nat} :
    t.scanAfter k w limit =
      (t.get k).elim [] fun _ => (rowsAbove w.sequence t.rows).take limit := by
  unfold Topic.scanAfter Topic.visitAfter
  cases t.get k with
  | none => rfl
  | some s => exact shown_always

theorem scanAfter_prefix {limit : Nat} (h : t.Sound) :
    t.scanAfter k w limit <+: (t.get k).elim [] fun _ => t.ledger.above w := by
  rw [scanAfter_eq]
  cases t.get k with
  | none => exact List.prefix_refl _
  | some s =>
    rw [rowsAbove_eq_filter h.ascending]
    exact List.take_prefix ..

theorem undelivered_eq : t.undelivered k = (t.get k).elim [] fun s => t.ledger.above s.acked := by
  unfold Topic.undelivered
  cases t.get k <;> rfl

theorem sound_of_rows {t' : Topic} (h : t.Sound) (hr : t'.rows = t.rows)
    (hn : t'.nextSequence = t.nextSequence) : t'.Sound :=
  ⟨hr ▸ h.ascending, hr ▸ h.positive, hr ▸ hn ▸ h.next, hn ▸ h.next_positive⟩

theorem append_answers (h : t.Sound) :
    (t.append r).2.Sound ∧
    t.ledger.Answers id (.append r) (.ok (t.append r).1) (t.append r).2.ledger := by
  unfold Topic.append
  split
  · refine ⟨h, Or.inr ⟨?_, rfl⟩⟩
    rintro x ⟨⟩
    rfl
  · refine ⟨⟨?_, ?_, ?_, ?_⟩, Or.inl ⟨_, rfl, rfl, h.next, h.next_positive, rfl⟩⟩
    · refine List.pairwise_append.2 ⟨h.ascending, List.pairwise_singleton _ _, ?_⟩
      simpa using h.next
    · intro x hx
      rcases List.mem_append.1 hx with hx | hx
      · exact h.positive x hx
      · simpa [List.mem_singleton.1 hx] using h.next_positive
    · intro x hx
      rcases List.mem_append.1 hx with hx | hx
      · have := h.next x hx
        simp; omega
      · obtain rfl := List.mem_singleton.1 hx
        exact Int.lt_succ _
    · have := h.next_positive
      simp; omega

theorem get_put_subscriptions {s : Subscription} :
    ({ t with subscriptions := t.subscriptions.put k s } : Topic).get j =
      if j = k then some s else t.get j :=
  t.subscriptions.find?_put k j s

theorem persist_ledger :
    (if t.moves k w then t.setAcked k w else t).ledger = t.ledger.persist id k w := by
  cases hk : t.get k with
  | none =>
    have hm : t.moves k w = false := by simp [Topic.moves, hk]
    refine Ledger.ext (by rw [hm]; rfl) (funext fun j => ?_)
    by_cases hj : j = k <;> simp [hm, Topic.ledger, Ledger.persist, Ledger.update, hj, hk]
  | some s =>
    have hm : t.moves k w = w.isAhead s.acked := by simp [Topic.moves, hk]
    rw [hm]
    by_cases hw : w.isAhead s.acked
    · rw [if_pos hw, Topic.setAcked, hk]
      refine Ledger.ext rfl (funext fun j => ?_)
      refine get_put_subscriptions.trans ?_
      by_cases hj : j = k
      · subst hj
        simp [Ledger.persist, Ledger.update, Topic.ledger, hk, Ledger.advanced, hw]
      · simp [Ledger.persist, Ledger.update, Topic.ledger, hj]
    · rw [if_neg hw]
      refine Ledger.ext rfl (funext fun j => ?_)
      by_cases hj : j = k
      · subst hj
        simp [Ledger.persist, Ledger.update, Topic.ledger, hk, Ledger.advanced, hw]
      · simp [Ledger.persist, Ledger.update, Topic.ledger, hj]

theorem put_ledger {s : Subscription} {retroactive : Bool} :
    (t.put s retroactive).ledger = t.ledger.put id s retroactive := by
  refine Ledger.ext rfl (funext fun j => ?_)
  refine get_put_subscriptions.trans ?_
  by_cases hj : j = s.key
  · subst hj
    simp only [Ledger.put, Ledger.update, Topic.ledger, if_true, SubscriberKey.spelled_id]
    cases t.get s.key <;> rfl
  · simp [Ledger.put, Ledger.update, Topic.ledger, hj]

theorem delete_ledger :
    (if (t.get k).isSome then t.delete k else t).ledger = t.ledger.delete id k := by
  have hd : ∀ j, (t.delete k).get j = if j = k then none else t.get j :=
    t.subscriptions.find?_erase k
  cases hk : t.get k with
  | none =>
    refine Ledger.ext rfl (funext fun j => ?_)
    by_cases hj : j = k <;> simp [Topic.ledger, Ledger.delete, Ledger.update, hj, hk]
  | some s =>
    refine Ledger.ext rfl (funext fun j => ?_)
    refine (hd j).trans ?_
    simp [Topic.ledger, Ledger.delete, Ledger.update]

/-- What a transaction sees of a destination. -/
def Transaction.sees (tx : Transaction) (committed : Topics) (d : String) : Topic :=
  topicOf (tx.view committed) d

variable {tx : Transaction} {committed : Topics} {d : String}

/-- A write of an active transaction is seen by it, and it stays active. -/
theorem write_active {α : Type} (committed : Topics) (d : String) (f : Topic → α × Topic)
    (h : tx.phase = .active) :
    (tx.write committed d f).1 = .ok (f (tx.sees committed d)).1 ∧
    (tx.write committed d f).2.phase = .active ∧
    (tx.write committed d f).2.sees committed d = (f (tx.sees committed d)).2 := by
  simp [Transaction.write, h, Transaction.sees, Transaction.view, topicOf, Assoc.find?_put]

theorem wrote_success {l written : Ledger} : Ledger.Wrote (.ok .success) l written written :=
  Or.inl ⟨_, rfl, rfl, rfl⟩

/-- An active transaction answers every call about a destination as its ledger says. -/
theorem perform_answers {c : Call} (h : tx.phase = .active)
    (hs : (tx.sees committed c.destination).Sound) :
    (tx.perform committed c).2.phase = .active ∧
    ((tx.perform committed c).2.sees committed c.destination).Sound ∧
    (tx.sees committed c.destination).ledger.Answers id c (tx.perform committed c).1
      ((tx.perform committed c).2.sees committed c.destination).ledger := by
  cases c with
  | append r =>
    obtain ⟨ha, hp, ht⟩ := write_active committed r.destination (·.append r) h
    simp only [Transaction.perform, Call.destination] at hs ⊢
    rw [ha, ht]
    exact ⟨hp, append_answers hs⟩
  | persist d k w =>
    simp only [Transaction.perform, Call.destination] at hs ⊢
    have hl := persist_ledger (t := tx.sees committed d) (k := k) (w := w)
    by_cases hm : (tx.sees committed d).moves k w
    · obtain ⟨ha, hp, ht⟩ := write_active committed d
        (fun topic => (Status.success, topic.setAcked k w)) h
      rw [if_pos hm] at hl
      rw [if_pos (by exact hm), ha, ht]
      refine ⟨hp, ?_, ?_⟩
      · apply sound_of_rows hs <;> (unfold Topic.setAcked; split <;> rfl)
      · exact hl ▸ wrote_success
    · rw [if_neg hm] at hl
      rw [if_neg (by exact hm)]
      refine ⟨h, hs, ?_⟩
      simp only [Ledger.Answers]
      exact hl ▸ wrote_success
  | put s retroactive =>
    obtain ⟨ha, hp, ht⟩ := write_active committed s.destination
      (fun topic => (Status.success, topic.put s retroactive)) h
    simp only [Transaction.perform, Call.destination] at hs ⊢
    rw [ha, ht]
    refine ⟨hp, sound_of_rows hs rfl rfl, ?_⟩
    simp only [Ledger.Answers, put_ledger]
    exact wrote_success
  | delete d k =>
    simp only [Transaction.perform, Call.destination] at hs ⊢
    have hl := delete_ledger (t := tx.sees committed d) (k := k)
    by_cases hm : ((tx.sees committed d).get k).isSome
    · obtain ⟨ha, hp, ht⟩ := write_active committed d
        (fun topic => (Status.success, topic.delete k)) h
      rw [if_pos hm] at hl
      rw [if_pos (by exact hm), ha, ht]
      exact ⟨hp, sound_of_rows hs rfl rfl, hl ▸ wrote_success⟩
    · rw [if_neg hm] at hl
      rw [if_neg (by exact hm)]
      refine ⟨h, hs, ?_⟩
      simp only [Ledger.Answers]
      exact hl ▸ wrote_success
  | load d k =>
    refine ⟨h, hs, rfl, ?_⟩
    rintro w ⟨⟩
    rfl
  | scanAfter d k w limit => exact ⟨h, hs, rfl, scanAfter_prefix hs⟩
  | scanAll d k => exact ⟨h, hs, rfl, undelivered_eq ▸ List.prefix_refl _⟩
  | get d k =>
    refine ⟨h, hs, rfl, ?_⟩
    rintro o ⟨⟩
    rfl
  | resolve => exact ⟨h, hs, rfl⟩
  | count => exact ⟨h, hs, rfl⟩
  | list => exact ⟨h, hs, rfl⟩

end DurableTopic.Repository.Memory

import DurableTopic.Proofs.Memory
/-! What a repository answers when nothing hinders it, said exactly. The backends differ in how they
keep text and in how they cut a scan short. -/
namespace DurableTopic.Repository

/-- No message is stored without an id. -/
def Call.Named : Call → Prop
  | append r => r.id ≠ ""
  | _ => True

namespace Ledger

/-- The sequence number that the next message gets. -/
def next (l : Ledger) : Int := l.rows.getLast?.elim 0 (·.sequence) + 1

/-- The position of the message that is kept under an id. -/
def position (spell : String → String) (l : Ledger) (id : String) : Option Watermark :=
  (l.rows.find? (·.id = spell id)).map Row.mark

/-- The exact answer to a call, and what the call leaves. A message whose id is stored is refused. -/
def Yields (spell : String → String) (first : Nat → List Row → List Row) (l : Ledger) :
    (c : Call) → c.Reply → Ledger → Prop
  | .append r, a, l' => ∃ x, a = .ok x ∧
    (((l.position spell r.id).isSome ∧ x.status.isOk = false ∧ l' = l) ∨
      (l.position spell r.id = none ∧ x = ⟨.success, l.next⟩ ∧
        l' = l.append (stored spell r l.next)))
  | .resolve _ id, a, l' => a = .ok (l.position spell id) ∧ l' = l
  | .persist _ k w, a, l' => a = .ok .success ∧ l' = l.persist spell k w
  | .load _ k, a, l' => a = .ok ((l.record k).elim .start (·.acked)) ∧ l' = l
  | .scanAfter _ k w n, a, l' =>
    a = { rows := first n ((l.record k).elim [] fun _ => l.above w) } ∧ l' = l
  | .scanAll _ k, a, l' => a = { rows := (l.record k).elim [] fun s => l.above s.acked } ∧ l' = l
  | .count _ k, a, l' =>
    a = .ok (((l.record k).elim [] fun s => l.above s.acked).length : Int) ∧ l' = l
  | .put s retroactive, a, l' => a = .ok .success ∧ l' = l.put spell s retroactive
  | .get _ k, a, l' => a = .ok (l.record k) ∧ l' = l
  | .delete _ k, a, l' => a = .ok .success ∧ l' = l.delete spell k
  | .list _, a, l' =>
    (∃ xs, a = .ok xs ∧ xs.Nodup ∧ ∀ x, x ∈ xs ↔ ∃ k, l.record k = some x) ∧ l' = l

end Ledger

namespace Memory

/-- The index knows the messages, every record is kept under its own key, and the next sequence
number is the next one. -/
structure Topic.Tidy (t : Topic) : Prop where
  index : ∀ i, t.byId.find? i = t.ledger.position id i
  next : t.nextSequence = t.ledger.next
  keyed : ∀ p ∈ t.subscriptions.pairs, p.2.key = p.1
  distinct : (t.subscriptions.pairs.map (·.1)).Nodup

variable {t : Topic} {k : SubscriberKey} {w : Watermark} {r : Row}

theorem tidy_empty : ({} : Topic).Tidy where
  index := fun _ => rfl
  next := rfl
  keyed := by simp [EmptyCollection.emptyCollection]
  distinct := by simp [EmptyCollection.emptyCollection]

theorem key_of_get {s : Subscription} (h : t.Tidy) (hk : t.get k = some s) : s.key = k :=
  h.keyed _ (Assoc.mem_of_find? hk)

theorem append_yields (h : t.Tidy) (hn : r.id ≠ "") {first : Nat → List Row → List Row} :
    (t.append r).2.Tidy ∧
    t.ledger.Yields id first (.append r) (.ok (t.append r).1) (t.append r).2.ledger := by
  have hid : r.id.isEmpty = false := by simpa [String.isEmpty_iff] using hn
  have hi := h.index r.id
  cases hp : t.ledger.position id r.id with
  | some v =>
    rw [hp] at hi
    simp only [Topic.append, hid, hi, Bool.not_false, Option.isSome_some, Bool.and_self, if_true]
    exact ⟨h, _, rfl, Or.inl ⟨by rw [hp]; rfl, rfl, rfl⟩⟩
  | none =>
    rw [hp] at hi
    simp only [Topic.append, hid, hi, Bool.not_false, Option.isSome_none, Bool.and_false,
      Bool.false_eq_true, if_false]
    refine ⟨⟨fun i => ?_, ?_, h.keyed, h.distinct⟩, _, rfl, Or.inr ⟨hp, ?_, ?_⟩⟩
    · simp only [Assoc.find?_put, h.index, Ledger.position, Topic.ledger, List.find?_append, id]
      by_cases hir : i = r.id
      · subst hir
        have hnone : t.rows.find? (·.id = r.id) = none := by
          simpa [Ledger.position, Topic.ledger] using hp
        simp [hnone]
      · simp [hir, Ne.symm hir]
    · simp [Ledger.next, Topic.ledger]
    · rw [h.next]
    · rw [← h.next]
      exact Ledger.ext rfl rfl

theorem put_tidy {s : Subscription} {retroactive : Bool} (h : t.Tidy) :
    (t.put s retroactive).Tidy where
  index := h.index
  next := h.next
  keyed p hp := by
    rcases Assoc.mem_put hp with rfl | hp
    · simp only
      split
      · rename_i x hx
        exact key_of_get (s := x) h hx
      · rfl
    · exact h.keyed p hp
  distinct := Assoc.nodup_put h.distinct

theorem setAcked_tidy (h : t.Tidy) : (t.setAcked k w).Tidy := by
  unfold Topic.setAcked
  split
  · rename_i s hs
    refine ⟨h.index, h.next, fun p hp => ?_, Assoc.nodup_put h.distinct⟩
    rcases Assoc.mem_put hp with rfl | hp
    · exact key_of_get (s := s) h hs
    · exact h.keyed p hp
  · exact h

theorem delete_tidy (h : t.Tidy) : (t.delete k).Tidy where
  index := h.index
  next := h.next
  keyed p hp := h.keyed p (List.mem_filter.1 hp).1
  distinct := Assoc.nodup_erase h.distinct

/-- The records in their order are each listed once. -/
theorem values_listed (h : t.Tidy) :
    t.subscriptions.values.Nodup ∧
    ∀ x, x ∈ t.subscriptions.values ↔ ∃ k, t.ledger.record k = some x := by
  constructor
  · have hkeys : t.subscriptions.values.map (·.key) = t.subscriptions.pairs.map (·.1) := by
      rw [Assoc.values, List.map_map]
      exact List.map_congr_left h.keyed
    have hd : (t.subscriptions.values.map (·.key)).Nodup := hkeys ▸ h.distinct
    exact (List.pairwise_map.1 hd).imp fun hne he => hne (congrArg _ he)
  · intro x
    rw [Assoc.values, List.mem_map]
    constructor
    · rintro ⟨⟨k, y⟩, hp, rfl⟩
      exact ⟨k, Assoc.find?_of_mem h.distinct hp⟩
    · rintro ⟨k, hk⟩
      exact ⟨(k, x), Assoc.mem_of_find? hk, rfl⟩

variable {tx : Transaction} {committed : Topics}

/-- An active transaction answers every call exactly. -/
theorem perform_yields {c : Call} (h : tx.phase = .active)
    (hs : (tx.sees committed c.destination).Sound) (ht : (tx.sees committed c.destination).Tidy)
    (hn : c.Named) :
    ((tx.perform committed c).2.sees committed c.destination).Tidy ∧
    (tx.sees committed c.destination).ledger.Yields id List.take c (tx.perform committed c).1
      ((tx.perform committed c).2.sees committed c.destination).ledger := by
  cases c with
  | append r =>
    obtain ⟨ha, -, hw⟩ := write_active committed r.destination (·.append r) h
    simp only [Transaction.perform, Call.destination] at ht ⊢
    rw [ha, hw]
    exact append_yields ht hn
  | persist d k w =>
    simp only [Transaction.perform, Call.destination] at ht ⊢
    have hl := persist_ledger (t := tx.sees committed d) (k := k) (w := w)
    by_cases hm : (tx.sees committed d).moves k w
    · obtain ⟨ha, -, hw⟩ := write_active committed d
        (fun topic => (Status.success, topic.setAcked k w)) h
      rw [if_pos hm] at hl
      rw [if_pos (by exact hm), ha, hw]
      exact ⟨setAcked_tidy ht, rfl, hl⟩
    · rw [if_neg hm] at hl
      rw [if_neg (by exact hm)]
      exact ⟨ht, rfl, hl⟩
  | put s retroactive =>
    obtain ⟨ha, -, hw⟩ := write_active committed s.destination
      (fun topic => (Status.success, topic.put s retroactive)) h
    simp only [Transaction.perform, Call.destination] at ht ⊢
    rw [ha, hw]
    exact ⟨put_tidy ht, rfl, put_ledger⟩
  | delete d k =>
    simp only [Transaction.perform, Call.destination] at ht ⊢
    have hl := delete_ledger (t := tx.sees committed d) (k := k)
    by_cases hm : ((tx.sees committed d).get k).isSome
    · obtain ⟨ha, -, hw⟩ := write_active committed d
        (fun topic => (Status.success, topic.delete k)) h
      rw [if_pos hm] at hl
      rw [if_pos (by exact hm), ha, hw]
      exact ⟨delete_tidy ht, rfl, hl⟩
    · rw [if_neg hm] at hl
      rw [if_neg (by exact hm)]
      exact ⟨ht, rfl, hl⟩
  | resolve d id => exact ⟨ht, congrArg Except.ok (ht.index id), rfl⟩
  | scanAfter d k w n =>
    refine ⟨ht, ?_, rfl⟩
    simp only [Transaction.perform, Scan.mk.injEq, and_true]
    change (tx.sees committed d).scanAfter k w n = _
    rw [scanAfter_eq]
    simp only [Call.destination] at hs
    cases hk : (tx.sees committed d).get k with
    | none => simp [Topic.ledger, hk, Call.destination]
    | some s =>
      simp only [Topic.ledger, hk, Option.elim_some, Call.destination]
      rw [rowsAbove_eq_filter hs.ascending]
      rfl
  | load | get => exact ⟨ht, rfl, rfl⟩
  | scanAll d k => exact ⟨ht, congrArg (fun rows => Scan.mk rows _) undelivered_eq, rfl⟩
  | count d k =>
    exact ⟨ht, congrArg (fun rows : List Row => Except.ok (rows.length : Int)) undelivered_eq, rfl⟩
  | list d => exact ⟨ht, ⟨_, rfl, values_listed ht⟩, rfl⟩

end Memory
end DurableTopic.Repository

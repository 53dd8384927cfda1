import DurableTopic.Proofs.Answers
import DurableTopic.Proofs.Embedded
/-! An embedded database that nothing hinders answers every call exactly: its tables exist, nothing
watches them, and its connection may write. -/
namespace DurableTopic.Repository.Embedded

/-- Both tables exist without triggers, and a row is the only one with its key. -/
structure Tables.Tidy (t : Tables) : Prop where
  messages : t.messages.isSome
  subscriptions : t.subscriptions.isSome
  triggers : t.triggers = []
  keyed : ∀ r ∈ t.subscriptions.getD [], r.key = .of r.destination r.record.key
  distinct : ((t.subscriptions.getD []).map (·.key)).Nodup

/-- Nobody keeps the connection from writing. -/
structure Connection.Free (c : Connection) : Prop where
  writable : c.readOnly = false
  unlocked : c.lockedOut = false

/-- The first rows that a limit lets through. -/
def first (limit : Nat) (rows : List Row) : List Row :=
  if limit = 0 then [] else limited rows (limitWord limit)

variable {t : Tables} {c : Connection} {d : String} {k : SubscriberKey} {w : Watermark}
  {subscribers : List SubscriptionRow} {rows : List Row}

theorem tidy_new : ({} : Tables).Tidy := ⟨rfl, rfl, rfl, by simp, by simp⟩

theorem columns_beforeNul : KeyColumns.of (Text.beforeNul d) k = .of d k := by
  simp [KeyColumns.of, Text.beforeNul_beforeNul]

theorem record_key {r : SubscriptionRow} (hr : r.key = .of d k) :
    r.record.key = k.spelled Text.beforeNul := by
  have hc : r.client = Text.beforeNul k.client := congrArg KeyColumns.client hr
  have hn : r.name = Text.beforeNul k.nameOrEmpty := congrArg KeyColumns.name hr
  have hs : r.nameSet = k.name.isSome := congrArg KeyColumns.nameSet hr
  obtain ⟨client, name⟩ := k
  cases name <;>
    simp_all [SubscriptionRow.record, SubscriberKey.spelled, SubscriberKey.nameOrEmpty]

theorem columns_key {r : SubscriptionRow} (hr : r.key = .of d k) :
    r.key = .of r.destination r.record.key := by
  have hd : r.destination = Text.beforeNul d := congrArg KeyColumns.destination hr
  rw [hd, columns_beforeNul, hr, columns_eq_iff, record_key hr]
  simp [SubscriberKey.spelled, Function.comp_def, Text.beforeNul_beforeNul]

theorem refusal_none (h : t.triggers = []) (e : Event) : t.refusal? e = none := by
  simp [Tables.refusal?, h]

theorem mayWrite_ok (h : c.Free) : c.mayWrite = .ok () := by
  simp [Connection.mayWrite, h.writable, h.unlocked]

theorem write_ok {α : Type} {f : Tables → Except Status (α × Tables)} {a : α} {t' : Tables}
    (h : c.Free) (hf : f c.tables = .ok (a, t')) :
    c.write f = (.ok a, { c with writing := c.saved.isSome, tables := t' }) := by
  simp [Connection.write, mayWrite_ok h, hf]

theorem write_error {α : Type} {f : Tables → Except Status (α × Tables)} {s : Status}
    (h : c.Free) (hf : f c.tables = .error s) :
    c.write f = (.error s, { c with writing := c.saved.isSome }) := by
  simp [Connection.write, mayWrite_ok h, hf]

theorem readMessages_some (h : t.messages = some rows) : t.readMessages = .ok rows := by
  simp [Tables.readMessages, h]

theorem readSubscriptions_some (h : t.subscriptions = some subscribers) :
    t.readSubscriptions = .ok subscribers := by
  simp [Tables.readSubscriptions, h]

theorem tidy_map {g : SubscriptionRow → SubscriptionRow} (h : t.Tidy)
    (hs : t.subscriptions = some subscribers) (hg : ∀ r, (g r).key = r.key) :
    { t with subscriptions := some (subscribers.map g) }.Tidy := by
  have hd := h.distinct
  have hk := h.keyed
  rw [hs, Option.getD_some] at hd hk
  refine ⟨h.messages, rfl, h.triggers, ?_, ?_⟩
  · intro r hr
    obtain ⟨x, hx, rfl⟩ := List.mem_map.1 hr
    exact columns_key ((hg x).trans (hk x hx))
  · have : (subscribers.map g).map (·.key) = subscribers.map (·.key) := by simp [hg]
    exact this ▸ hd

theorem position_eq {i : String} (hm : t.messages = some rows) :
    (t.ledger d).position Text.beforeNul i =
      (rows.find? fun r => r.destination = Text.beforeNul d ∧ r.id = Text.beforeNul i).map
        (·.mark) := by
  simp [Ledger.position, Tables.ledger, hm, List.find?_filter]

theorem stored_iff {i : String} (hm : t.messages = some rows) :
    (rows.any fun o => o.destination = Text.beforeNul d ∧ o.id = Text.beforeNul i) =
      ((t.ledger d).position Text.beforeNul i).isSome := by
  rw [position_eq hm, Option.isSome_map, List.isSome_find?]

theorem append_yields {r : Row} {cut : Nat → List Row → List Row} (hc : c.Free)
    (ht : c.tables.Tidy) (h : (c.tables.ledger r.destination).Sound) :
    (perform c (.append r)).2.Free ∧ (perform c (.append r)).2.tables.Tidy ∧
    (c.tables.ledger r.destination).Yields Text.beforeNul cut (.append r)
      (perform c (.append r)).1 ((perform c (.append r)).2.tables.ledger r.destination) := by
  obtain ⟨rows, hm⟩ := Option.isSome_iff_exists.1 ht.messages
  have hg := greatest_eq h
  rw [hm, Option.getD_some] at hg
  have hp := stored_iff (d := r.destination) (i := r.id) hm
  cases hpos : (c.tables.ledger r.destination).position Text.beforeNul r.id with
  | some v =>
    rw [hpos, Option.isSome_some] at hp
    have hins : c.tables.insertMessage rows r = .error ⟨.constraintViolation,
        "UNIQUE constraint failed: topic_messages.destination, topic_messages.message_id"⟩ := by
      simp only [Tables.insertMessage, refusal_none ht.triggers, hp, if_true]
    simp only [perform, readMessages_some hm, write_error hc hins]
    exact ⟨⟨hc.writable, hc.unlocked⟩, ht, _, rfl, Or.inl ⟨by rw [hpos]; rfl, rfl, rfl⟩⟩
  | none =>
    rw [hpos, Option.isSome_none] at hp
    have hins : c.tables.insertMessage rows r = .ok ((c.tables.ledger r.destination).next,
        { c.tables with messages := some (rows ++ [{ r with
          destination := Text.beforeNul r.destination, id := Text.beforeNul r.id,
          sequence := (c.tables.ledger r.destination).next }]) }) := by
      have hn : (Tables.greatest rows (Text.beforeNul r.destination)).getD 0 + 1 =
          (c.tables.ledger r.destination).next := by
        rw [hg, Ledger.next]
        cases (c.tables.ledger r.destination).rows.getLast? <;> rfl
      simp only [Tables.insertMessage, refusal_none ht.triggers, hp, hn, Bool.false_eq_true,
        if_false]
    simp only [perform, readMessages_some hm, write_ok hc hins]
    refine ⟨⟨hc.writable, hc.unlocked⟩, ⟨rfl, ht.subscriptions, ht.triggers, ht.keyed, ht.distinct⟩,
      _, rfl, Or.inr ⟨hpos, rfl, Ledger.ext ?_ rfl⟩⟩
    simp [Tables.ledger, Ledger.append, hm, Ledger.stored]

theorem updateAcked_ok (ht : t.Tidy) (hs : t.subscriptions = some subscribers) :
    ∃ t', t.updateAcked subscribers (.of d k) w = .ok ((), t') ∧ t'.Tidy ∧
      t'.ledger d = (t.ledger d).persist Text.beforeNul k w := by
  rcases updateAcked_cases (d := d) (k := k) (w := w) hs with ⟨s, he, -⟩ | ⟨t', ho, hl⟩
  · simp only [Tables.updateAcked, refusal_none ht.triggers] at he
    split at he <;> simp_all
  · refine ⟨t', ho, ?_, hl⟩
    simp only [Tables.updateAcked, refusal_none ht.triggers] at ho
    split at ho
    · simp_all
    · cases ho
      refine tidy_map ht hs fun r => ?_
      split <;> rfl

theorem upsert_ok {record : Subscription} {retroactive : Bool} (ht : t.Tidy)
    (hs : t.subscriptions = some subscribers) (hm : t.messages = some rows)
    (h : (t.ledger record.destination).Sound) :
    ∃ t', t.upsert subscribers rows record retroactive = .ok ((), t') ∧ t'.Tidy ∧
      t'.ledger record.destination =
        (t.ledger record.destination).put Text.beforeNul record retroactive := by
  rcases upsert_cases retroactive hs hm h with ⟨s, he, -⟩ | ⟨t', ho, hl⟩
  · simp only [Tables.upsert, refusal_none ht.triggers] at he
    split at he <;> simp_all
  · refine ⟨t', ho, ?_, hl⟩
    simp only [Tables.upsert, refusal_none ht.triggers] at ho
    split at ho
    · cases ho
    · cases ho
    · cases ho
      refine tidy_map ht hs fun r => ?_
      split <;> rfl
    · rename_i hany
      cases ho
      have hk := ht.keyed
      have hd := ht.distinct
      rw [hs, Option.getD_some] at hk hd
      refine ⟨ht.messages, rfl, ht.triggers, ?_, ?_⟩
      · intro r hr
        rcases List.mem_append.1 hr with hr | hr
        · exact hk r hr
        · obtain rfl := List.mem_singleton.1 hr
          exact columns_key rfl
      · rw [Option.getD_some, List.map_append, List.nodup_append]
        refine ⟨hd, by simp, ?_⟩
        intro a ha b hb
        obtain ⟨r, hr, rfl⟩ := List.mem_map.1 ha
        obtain rfl : b = .of record.destination record.key := List.mem_singleton.1 hb
        simpa using List.any_eq_false.1 hany r hr

theorem deleteSubscriber_ok (ht : t.Tidy) (hs : t.subscriptions = some subscribers) :
    ∃ t', t.deleteSubscriber subscribers (.of d k) = .ok ((), t') ∧ t'.Tidy ∧
      t'.ledger d = (t.ledger d).delete Text.beforeNul k := by
  rcases deleteSubscriber_cases (d := d) (k := k) hs with ⟨s, he, -⟩ | ⟨t', ho, hl⟩
  · simp only [Tables.deleteSubscriber, refusal_none ht.triggers] at he
    split at he <;> simp_all
  · refine ⟨t', ho, ?_, hl⟩
    simp only [Tables.deleteSubscriber, refusal_none ht.triggers] at ho
    split at ho
    · simp_all
    · cases ho
      have hk := ht.keyed
      have hd := ht.distinct
      rw [hs, Option.getD_some] at hk hd
      refine ⟨ht.messages, rfl, ht.triggers, fun r hr => hk r (List.mem_filter.1 hr).1, ?_⟩
      exact hd.sublist (List.filter_sublist.map _)

/-- What a write reports that succeeds. -/
theorem reported_ok {f : Tables → Except Status (Unit × Tables)} {written : Ledger} (hc : c.Free)
    (h : ∃ t', f c.tables = .ok ((), t') ∧ t'.Tidy ∧ t'.ledger d = written) :
    (c.write f).2.Free ∧ (c.write f).2.tables.Tidy ∧
    reported (c.write f).1 = .ok .success ∧ (c.write f).2.tables.ledger d = written := by
  obtain ⟨t', hf, ht, hl⟩ := h
  rw [write_ok hc hf]
  exact ⟨⟨hc.writable, hc.unlocked⟩, ht, rfl, hl⟩

theorem subscriber_some (hs : t.subscriptions = some subscribers) :
    ∃ row, t.subscriber (.of d k) = .ok row ∧ row.map (·.record) = (t.ledger d).record k := by
  have h : t.subscriber (.of d k) = .ok (subscribers.find? (·.key = .of d k)) := by
    simp [Tables.subscriber, readSubscriptions_some hs, bind, Except.bind, pure, Except.pure]
  exact ⟨_, h, subscriber_ok h⟩

theorem joined_some (above : SubscriptionRow → Int) (f : Subscription → Watermark) (ht : t.Tidy)
    (h : (t.ledger d).Sound) (hf : ∀ r : SubscriptionRow, (f r.record).sequence = above r) :
    t.joined (.of d k) above =
      .ok (((t.ledger d).record k).elim [] fun s => (t.ledger d).above (f s)) := by
  obtain ⟨rows, hm⟩ := Option.isSome_iff_exists.1 ht.messages
  obtain ⟨subscribers, hs⟩ := Option.isSome_iff_exists.1 ht.subscriptions
  cases hj : t.joined (.of d k) above with
  | error e =>
    simp [Tables.joined, readMessages_some hm, readSubscriptions_some hs, bind, Except.bind, pure,
      Except.pure] at hj
  | ok rows => rw [joined_rows h hf hj]

theorem find_of_mem {r : SubscriptionRow} (hd : (subscribers.map (·.key)).Nodup)
    (hr : r ∈ subscribers) : subscribers.find? (·.key = r.key) = some r := by
  obtain ⟨before, after, rfl⟩ := List.append_of_mem hr
  rw [List.map_append, List.nodup_append] at hd
  rw [List.find?_append, List.find?_eq_none.2, Option.none_or, List.find?_cons_of_pos (by simp)]
  intro x hx
  simpa using hd.2.2 x.key (List.mem_map_of_mem hx) r.key (by simp)

/-- The records of a destination are each listed once. -/
theorem subscribers_listed (ht : t.Tidy) (hs : t.subscriptions = some subscribers) :
    ((subscribers.filter (·.destination = Text.beforeNul d)).map (·.record)).Nodup ∧
    ∀ x, x ∈ (subscribers.filter (·.destination = Text.beforeNul d)).map (·.record) ↔
      ∃ k, (t.ledger d).record k = some x := by
  have hk := ht.keyed
  have hd := ht.distinct
  rw [hs, Option.getD_some] at hk hd
  constructor
  · refine List.pairwise_map.2 (List.Pairwise.imp_of_mem ?_
      ((List.pairwise_map.1 hd).sublist List.filter_sublist))
    intro a b ha hb hne he
    have hdest : a.destination = b.destination := congrArg Subscription.destination he
    exact hne (by rw [hk a (List.mem_filter.1 ha).1, hk b (List.mem_filter.1 hb).1, he, hdest])
  · intro x
    rw [List.mem_map]
    constructor
    · rintro ⟨r, hr, rfl⟩
      obtain ⟨hr, hdest⟩ := List.mem_filter.1 hr
      have hdest : r.destination = Text.beforeNul d := by simpa using hdest
      refine ⟨r.record.key, ?_⟩
      rw [record_eq hs, ← columns_beforeNul, ← hdest, ← hk r hr, find_of_mem hd hr]
      rfl
    · rintro ⟨k, hrec⟩
      rw [record_eq hs] at hrec
      obtain ⟨r, hf, rfl⟩ := Option.map_eq_some_iff.1 hrec
      have hkey : r.key = .of d k := by simpa using List.find?_some hf
      have hdest : r.destination = Text.beforeNul d := congrArg KeyColumns.destination hkey
      exact ⟨r, List.mem_filter.2 ⟨List.mem_of_find?_eq_some hf, by simpa using hdest⟩, rfl⟩

/-- A connection that nothing hinders answers every call exactly. -/
theorem perform_yields (call : Call) (hc : c.Free) (ht : c.tables.Tidy)
    (h : (c.tables.ledger call.destination).Sound) :
    (perform c call).2.Free ∧ (perform c call).2.tables.Tidy ∧
    (c.tables.ledger call.destination).Yields Text.beforeNul first call (perform c call).1
      ((perform c call).2.tables.ledger call.destination) := by
  obtain ⟨rows, hm⟩ := Option.isSome_iff_exists.1 ht.messages
  obtain ⟨subscribers, hs⟩ := Option.isSome_iff_exists.1 ht.subscriptions
  cases call with
  | append r => exact append_yields hc ht h
  | persist d k w =>
    simp only [perform, readSubscriptions_some hs]
    exact reported_ok hc (updateAcked_ok ht hs)
  | put s retroactive =>
    simp only [perform, readSubscriptions_some hs, readMessages_some hm]
    exact reported_ok hc (upsert_ok ht hs hm h)
  | delete d k =>
    simp only [perform, readSubscriptions_some hs]
    exact reported_ok hc (deleteSubscriber_ok ht hs)
  | resolve d i =>
    refine ⟨hc, ht, ?_, rfl⟩
    simp only [perform, Call.destination, position_eq hm, Tables.resolve, readMessages_some hm]
    rfl
  | load d k =>
    obtain ⟨row, hr, hrec⟩ := subscriber_some (d := d) (k := k) hs
    refine ⟨hc, ht, ?_, rfl⟩
    simp only [perform, hr, queried, Call.destination, ← hrec]
    cases row <;> rfl
  | get d k =>
    obtain ⟨row, hr, hrec⟩ := subscriber_some (d := d) (k := k) hs
    refine ⟨hc, ht, ?_, rfl⟩
    simp only [perform, hr, queried, Call.destination, ← hrec]
  | scanAfter d k w n =>
    have hj := joined_some (k := k) (fun _ => w.sequence) (fun _ => w) ht h
      fun _ => rfl
    refine ⟨?_, ?_, ?_⟩
    · simp only [perform]
      split <;> exact hc
    · simp only [perform]
      split <;> exact ht
    · by_cases hn : n = 0
      · simp [perform, hn, Ledger.Yields, first]
      · simp only [Call.destination] at hj
        simp [perform, hn, Ledger.Yields, first, hj, scanned, Call.destination, Except.map]
  | scanAll d k =>
    have hj := joined_some (k := k) (·.acked.sequence) (·.acked) ht h
      fun _ => rfl
    simp only [Call.destination] at hj
    exact ⟨hc, ht, by simp [perform, hj, scanned, Call.destination], rfl⟩
  | count d k =>
    have hj := joined_some (k := k) (·.acked.sequence) (·.acked) ht h
      fun _ => rfl
    simp only [Call.destination] at hj
    exact ⟨hc, ht, by simp [perform, hj, queried, Call.destination], rfl⟩
  | list d =>
    refine ⟨hc, ht, ⟨_, ?_, subscribers_listed ht hs⟩, rfl⟩
    simp only [perform, Tables.subscribers, readSubscriptions_some hs]
    rfl

end DurableTopic.Repository.Embedded

import DurableTopic.Proofs.Ledger
import DurableTopic.Repository.Embedded
/-! The repository over an embedded database answers as a ledger says. Its text ends before the
first NUL, so keys that agree up to there are one subscriber. -/
namespace DurableTopic.Repository.Embedded

/-- What the tables hold for a destination. -/
def Tables.ledger (t : Tables) (d : String) : Ledger where
  rows := (t.messages.getD []).filter (·.destination = Text.beforeNul d)
  record k := ((t.subscriptions.getD []).find? (·.key = .of d k)).map (·.record)

variable {t t' : Tables} {d : String} {j k : SubscriberKey} {c : Connection} {w : Watermark}
  {subscribers : List SubscriptionRow} {s : Status}

theorem columns_eq_iff :
    KeyColumns.of d j = KeyColumns.of d k ↔
      j.spelled Text.beforeNul = k.spelled Text.beforeNul := by
  obtain ⟨a, m⟩ := j
  obtain ⟨b, n⟩ := k
  cases m <;> cases n <;>
    simp [KeyColumns.of, SubscriberKey.spelled, SubscriberKey.nameOrEmpty]

theorem max?_ascending {rows : List Row} (h : rows.Pairwise fun a b => a.sequence < b.sequence) :
    (rows.map (·.sequence)).max? = rows.getLast?.map (·.sequence) := by
  rcases List.eq_nil_or_concat rows with rfl | ⟨init, r, rfl⟩
  · rfl
  · rw [List.concat_eq_append] at h ⊢
    rw [List.getLast?_append, List.getLast?_singleton, Option.some_or, Option.map_some,
      List.max?_eq_some_iff]
    refine ⟨by simp, ?_⟩
    intro b hb
    obtain ⟨x, hx, rfl⟩ := List.mem_map.1 hb
    rcases List.mem_append.1 hx with hx | hx
    · have := (List.pairwise_append.1 h).2.2 x hx r (by simp)
      omega
    · obtain rfl := List.mem_singleton.1 hx
      exact Int.le_refl _

theorem greatest_eq (h : (t.ledger d).Sound) :
    Tables.greatest (t.messages.getD []) (Text.beforeNul d) =
      (t.ledger d).rows.getLast?.map (·.sequence) :=
  max?_ascending h.ascending

/-- A write leaves the tables as its statement does, or as they were. -/
theorem write_cases {α : Type} {f : Tables → Except Status (α × Tables)} :
    (c.write f).2.saved = c.saved ∧
    ((∃ a, (c.write f).1 = .ok a ∧ f c.tables = .ok (a, (c.write f).2.tables)) ∨
      (∃ s, (c.write f).1 = .error s ∧ (c.write f).2.tables = c.tables ∧
        (s.isOk = false ∨ f c.tables = .error s))) := by
  unfold Connection.write
  cases hm : c.mayWrite with
  | error s =>
    refine ⟨rfl, Or.inr ⟨s, rfl, rfl, Or.inl ?_⟩⟩
    unfold Connection.mayWrite at hm
    split at hm
    · cases hm; rfl
    · split at hm <;> cases hm
      rfl
  | ok _ =>
    cases hf : f c.tables with
    | error s => simp [hf]
    | ok p => simp [hf]

theorem refusal_not_ok {e : Event} (h : t.refusal? e = some s) : s.isOk = false := by
  obtain ⟨text, -, rfl⟩ := Option.map_eq_some_iff.1 h
  rfl

theorem readMessages_ok {rows : List Row} (h : t.readMessages = .ok rows) :
    t.messages = some rows := by
  unfold Tables.readMessages at h
  split at h <;> simp_all

theorem readSubscriptions_ok (h : t.readSubscriptions = .ok subscribers) :
    t.subscriptions = some subscribers := by
  unfold Tables.readSubscriptions at h
  split at h <;> simp_all

theorem record_eq (hs : t.subscriptions = some subscribers) :
    (t.ledger d).record j = (subscribers.find? (·.key = .of d j)).map (·.record) := by
  rw [Tables.ledger, hs, Option.getD_some]

/-- The record of a subscriber when every row is changed alike and keeps its key. -/
theorem record_map {g : SubscriptionRow → SubscriptionRow} (hg : ∀ r, (g r).key = r.key)
    (ht : t.subscriptions = some (subscribers.map g)) :
    (t.ledger d).record j = (subscribers.find? (·.key = .of d j)).map fun r => (g r).record := by
  simp only [Tables.ledger, ht, Option.getD_some, List.find?_map, Function.comp_def, hg,
    Option.map_map]

theorem find_other {g : SubscriptionRow → SubscriptionRow}
    (hg : ∀ r, r.key ≠ KeyColumns.of d k → g r = r)
    (hj : j.spelled Text.beforeNul ≠ k.spelled Text.beforeNul) :
    ((subscribers.find? (·.key = .of d j)).map fun r => (g r).record) =
      (subscribers.find? (·.key = .of d j)).map (·.record) := by
  cases hf : subscribers.find? (·.key = .of d j) with
  | none => rfl
  | some r =>
    have hk : r.key = .of d j := by simpa using List.find?_some hf
    have hne : r.key ≠ .of d k := fun he => hj (columns_eq_iff.1 (hk.symm.trans he))
    simp [hg r hne]

/-- The record of a subscriber when a row for a new key is added. -/
theorem record_append {new : SubscriptionRow} (ht : t.subscriptions = some (subscribers ++ [new]))
    (hk : new.key = .of d k) (hany : subscribers.any (·.key = .of d k) = false) :
    (t.ledger d).record j = if j.spelled Text.beforeNul = k.spelled Text.beforeNul
      then some new.record else (subscribers.find? (·.key = .of d j)).map (·.record) := by
  simp only [Tables.ledger, ht, Option.getD_some, List.find?_append]
  by_cases hj : j.spelled Text.beforeNul = k.spelled Text.beforeNul
  · have hf : subscribers.find? (·.key = .of d k) = none := by
      rw [List.find?_eq_none]
      exact List.any_eq_false.1 hany
    rw [if_pos hj, columns_eq_iff.2 hj, hf]
    simp [hk]
  · have hne : ¬ new.key = .of d j := fun he => hj (columns_eq_iff.1 (he.symm.trans hk))
    rw [if_neg hj]
    simp [hne]

theorem insertMessage_cases {rows : List Row} {r : Row} (hm : t.messages = some rows)
    (h : (t.ledger r.destination).Sound) :
    (∃ s, t.insertMessage rows r = .error s ∧ s.isOk = false) ∨
    (∃ n t', t.insertMessage rows r = .ok (n, t') ∧
      (∀ y ∈ (t.ledger r.destination).rows, y.sequence < n) ∧ 0 < n ∧
      t'.ledger r.destination =
        (t.ledger r.destination).append (Ledger.stored Text.beforeNul r n)) := by
  have hg := greatest_eq h
  rw [hm, Option.getD_some] at hg
  unfold Tables.insertMessage
  cases hr : t.refusal? ⟨.insert, .messages⟩ with
  | some s => exact Or.inl ⟨s, rfl, refusal_not_ok hr⟩
  | none =>
    simp only
    split
    · exact Or.inl ⟨_, rfl, rfl⟩
    · refine Or.inr ⟨_, _, rfl, ?_, ?_, ?_⟩
      · intro y hy
        rw [hg]
        rcases List.eq_nil_or_concat (t.ledger r.destination).rows with hn | ⟨init, x, hx⟩
        · simp [hn] at hy
        · rw [List.concat_eq_append] at hx
          have hs := h.ascending
          rw [hx] at hy hs
          simp only [hx, List.getLast?_append, List.getLast?_singleton, Option.some_or,
            Option.map_some, Option.getD_some]
          rcases List.mem_append.1 hy with hy | hy
          · have := (List.pairwise_append.1 hs).2.2 y hy x (by simp)
            omega
          · rw [List.mem_singleton.1 hy]
            omega
      · rw [hg]
        cases hl : (t.ledger r.destination).rows.getLast? with
        | none => decide
        | some x =>
          have := h.positive x (List.mem_of_getLast? hl)
          simp; omega
      · refine Ledger.ext ?_ rfl
        simp [Tables.ledger, Ledger.append, hm, Ledger.stored]

theorem updateAcked_cases (hs : t.subscriptions = some subscribers) :
    (∃ s, t.updateAcked subscribers (.of d k) w = .error s ∧ s.isOk = false) ∨
    (∃ t', t.updateAcked subscribers (.of d k) w = .ok ((), t') ∧
      t'.ledger d = (t.ledger d).persist Text.beforeNul k w) := by
  unfold Tables.updateAcked
  simp only
  split
  · rename_i hr
    exact Or.inl ⟨_, rfl, refusal_not_ok hr⟩
  · refine Or.inr ⟨_, rfl, Ledger.ext rfl (funext fun j => ?_)⟩
    rw [record_map ?_ rfl]
    · simp only [Ledger.persist, Ledger.update, Tables.ledger, hs, Option.getD_some]
      by_cases hj : j.spelled Text.beforeNul = k.spelled Text.beforeNul
      · rw [if_pos hj, columns_eq_iff.2 hj, Option.map_map]
        apply Option.map_congr
        intro r hr
        have hk : r.key = .of d k := by simpa using List.find?_some hr
        by_cases hw : r.acked.sequence < w.sequence <;>
          simp [hk, hw, Ledger.advanced, SubscriptionRow.record]
      · rw [if_neg hj]
        exact find_other (fun r hr => by simp [hr]) hj
    · intro r
      split <;> rfl

theorem head_eq (h : (t.ledger d).Sound) (retroactive : Bool) :
    (⟨if retroactive then -1 else
      (Tables.greatest (t.messages.getD []) (Text.beforeNul d)).getD (-1), 0⟩ : Watermark) =
      (t.ledger d).startFor retroactive := by
  rw [greatest_eq h]
  cases retroactive with
  | true => rfl
  | false => cases hl : (t.ledger d).rows.getLast? <;> simp [Ledger.startFor, hl, Watermark.start]

theorem record_new {a : Watermark} {selector : String} {retroactive : Bool} :
    SubscriptionRow.record ⟨(KeyColumns.of d k).destination, (KeyColumns.of d k).client,
      (KeyColumns.of d k).name, (KeyColumns.of d k).nameSet, selector, retroactive, a⟩ =
      ⟨Text.beforeNul d, k.spelled Text.beforeNul, selector, retroactive, a⟩ := by
  obtain ⟨client, name⟩ := k
  cases name <;> rfl

theorem upsert_cases {rows : List Row} {record : Subscription} (retroactive : Bool)
    (hs : t.subscriptions = some subscribers) (hm : t.messages = some rows)
    (h : (t.ledger record.destination).Sound) :
    (∃ s, t.upsert subscribers rows record retroactive = .error s ∧ s.isOk = false) ∨
    (∃ t', t.upsert subscribers rows record retroactive = .ok ((), t') ∧
      t'.ledger record.destination =
        (t.ledger record.destination).put Text.beforeNul record retroactive) := by
  have hhead := head_eq h retroactive
  rw [hm, Option.getD_some] at hhead
  unfold Tables.upsert
  simp only
  split
  · rename_i hr
    exact Or.inl ⟨_, rfl, refusal_not_ok hr⟩
  · rename_i hr
    exact Or.inl ⟨_, rfl, refusal_not_ok hr⟩
  · rename_i _ hany _
    obtain ⟨old, hold, hkey⟩ := List.any_eq_true.1 hany
    refine Or.inr ⟨_, rfl, Ledger.ext rfl (funext fun j => ?_)⟩
    rw [record_map ?_ rfl]
    · simp only [Ledger.put, Ledger.update, Tables.ledger, hs, Option.getD_some]
      by_cases hj : j.spelled Text.beforeNul = record.key.spelled Text.beforeNul
      · rw [if_pos hj, columns_eq_iff.2 hj]
        cases hf : subscribers.find? (·.key = .of record.destination record.key) with
        | none => exact absurd hkey (List.find?_eq_none.1 hf old hold)
        | some r =>
          have hk : r.key = .of record.destination record.key := by
            simpa using List.find?_some hf
          simp [hk, SubscriptionRow.record]
      · rw [if_neg hj]
        exact find_other (fun r hr => by simp [hr]) hj
    · intro r
      split <;> rfl
  · rename_i hany
    refine Or.inr ⟨_, rfl, Ledger.ext rfl (funext fun j => ?_)⟩
    rw [record_append rfl rfl hany, record_new]
    simp only [Ledger.put, Ledger.update, record_eq hs]
    by_cases hj : j.spelled Text.beforeNul = record.key.spelled Text.beforeNul
    · have hf : subscribers.find? (·.key = .of record.destination j) = none := by
        rw [columns_eq_iff.2 hj, List.find?_eq_none]
        exact List.any_eq_false.1 hany
      rw [if_pos hj, if_pos hj, hf, ← hhead]
      rfl
    · rw [if_neg hj, if_neg hj]

theorem deleteSubscriber_cases (hs : t.subscriptions = some subscribers) :
    (∃ s, t.deleteSubscriber subscribers (.of d k) = .error s ∧ s.isOk = false) ∨
    (∃ t', t.deleteSubscriber subscribers (.of d k) = .ok ((), t') ∧
      t'.ledger d = (t.ledger d).delete Text.beforeNul k) := by
  unfold Tables.deleteSubscriber
  split
  · rename_i hr
    exact Or.inl ⟨_, rfl, refusal_not_ok hr⟩
  · refine Or.inr ⟨_, rfl, Ledger.ext rfl (funext fun j => ?_)⟩
    simp only [Ledger.delete, Ledger.update, Tables.ledger, hs, Option.getD_some]
    by_cases hj : j.spelled Text.beforeNul = k.spelled Text.beforeNul
    · have hf : (subscribers.filter (·.key ≠ .of d k)).find? (·.key = .of d j) = none := by
        rw [List.find?_eq_none, columns_eq_iff.2 hj]
        intro r hr
        simpa using (List.mem_filter.1 hr).2
      rw [if_pos hj, hf]
      rfl
    · have hf : (subscribers.filter (·.key ≠ .of d k)).find? (·.key = .of d j) =
          subscribers.find? (·.key = .of d j) := by
        rw [List.find?_filter]
        congr 1
        funext r
        by_cases hr : r.key = .of d j
        · have : r.key ≠ .of d k := fun he => hj (columns_eq_iff.1 (hr.symm.trans he))
          simpa [hr] using this
        · simp [hr]
      rw [if_neg hj, hf]

/-- A join of a subscriber with its messages gives those above the position it names. -/
theorem joined_rows {above : SubscriptionRow → Int} {rows : List Row} {f : Subscription → Watermark}
    (h : (t.ledger d).Sound) (hf : ∀ r : SubscriptionRow, (f r.record).sequence = above r)
    (hr : t.joined (.of d k) above = .ok rows) :
    rows = ((t.ledger d).record k).elim [] fun s => (t.ledger d).above (f s) := by
  unfold Tables.joined at hr
  cases hm : t.readMessages with
  | error e => simp [hm, bind, Except.bind] at hr
  | ok messages =>
    cases hs : t.readSubscriptions with
    | error e => simp [hm, hs, bind, Except.bind] at hr
    | ok subscribers =>
      have hm' := readMessages_ok hm
      have hs' := readSubscriptions_ok hs
      simp only [hm, hs, bind, Except.bind, pure, Except.pure, Except.ok.injEq] at hr
      cases hfind : subscribers.find? (·.key = .of d k) with
      | none =>
        simp only [hfind] at hr
        simp [← hr, Tables.ledger, hs', hfind]
      | some s =>
        have hk : s.key = .of d k := by simpa using List.find?_some hfind
        have hd : s.destination = Text.beforeNul d := congrArg KeyColumns.destination hk
        have ha : (t.ledger d).above (f s.record) = messages.filter fun r =>
            decide (r.destination = s.destination ∧ above s < r.sequence) := by
          simp only [Ledger.above, Tables.ledger, hm', Option.getD_some, List.filter_filter, hd]
          congr 1
          funext r
          simp [Row.mark, Watermark.isAhead, hf, Bool.and_comm]
        simp only [hfind] at hr
        have hrec : (t.ledger d).record k = some s.record := by
          simp [Tables.ledger, hs', hfind]
        rw [hrec, Option.elim_some, ha, ← hr, ← ha]
        apply List.mergeSort_of_pairwise
        have := h.ascending.filter (·.mark.isAhead (f s.record))
        exact this.imp fun hab => by simp; omega

theorem subscriber_ok {row : Option SubscriptionRow} (h : t.subscriber (.of d k) = .ok row) :
    row.map (·.record) = (t.ledger d).record k := by
  unfold Tables.subscriber at h
  cases hs : t.readSubscriptions with
  | error e => simp [hs, bind, Except.bind] at h
  | ok subscribers =>
    simp only [hs, bind, Except.bind, pure, Except.pure, Except.ok.injEq] at h
    rw [record_eq (readSubscriptions_ok hs), h]

theorem queried_ok {α β : Type} {x : Except String α} {f : α → β} {b : β}
    (h : queried x f = .ok b) : ∃ a, x = .ok a ∧ b = f a := by
  unfold queried at h
  split at h
  · exact ⟨_, rfl, (Except.ok.inj h).symm⟩
  · cases h

/-- A statement that writes does what it is for, or it reports why not and changes nothing. -/
theorem reported_wrote {f : Tables → Except Status (Unit × Tables)} {written : Ledger}
    (h : (∃ s, f c.tables = .error s ∧ s.isOk = false) ∨
      (∃ t', f c.tables = .ok ((), t') ∧ t'.ledger d = written)) :
    (c.write f).2.saved = c.saved ∧
    Ledger.Wrote (reported (c.write f).1) (c.tables.ledger d) written
      ((c.write f).2.tables.ledger d) := by
  obtain ⟨hsaved, ⟨a, ha, hf⟩ | ⟨s, he, ht, hs⟩⟩ := write_cases (c := c) (f := f)
  · refine ⟨hsaved, Or.inl ⟨.success, by rw [ha]; rfl, rfl, ?_⟩⟩
    rcases h with ⟨s, he, -⟩ | ⟨t', ht, hl⟩
    · rw [he] at hf
      cases hf
    · rw [ht] at hf
      cases hf
      exact hl
  · refine ⟨hsaved, Or.inr ⟨?_, by rw [ht]⟩⟩
    intro s' hs'
    rw [he] at hs'
    obtain rfl : s = s' := Except.ok.inj hs'
    rcases hs with hs | hs
    · exact hs
    · rcases h with ⟨s', he', hok⟩ | ⟨t', ht', -⟩
      · rw [hs] at he'
        cases he'
        exact hok
      · rw [hs] at ht'
        cases ht'

theorem internal_wrote {text : String} {l written : Ledger} :
    Ledger.Wrote (.ok (internal text)) l written l := by
  refine Or.inr ⟨?_, rfl⟩
  rintro s ⟨⟩
  rfl

theorem limited_prefix (rows : List Row) (n : Int) : limited rows n <+: rows := by
  unfold limited
  split
  · exact List.prefix_refl _
  · exact List.take_prefix ..

theorem append_answers {r : Row} (h : (c.tables.ledger (Call.append r).destination).Sound) :
    (perform c (.append r)).2.saved = c.saved ∧
    (c.tables.ledger (Call.append r).destination).Answers Text.beforeNul (.append r)
      (perform c (.append r)).1
      ((perform c (.append r)).2.tables.ledger (Call.append r).destination) := by
  simp only [Call.destination] at h ⊢
  unfold perform
  cases hm : c.tables.readMessages with
  | error e =>
    refine ⟨rfl, Or.inr ⟨?_, rfl⟩⟩
    rintro x ⟨⟩
    rfl
  | ok rows =>
    simp only
    obtain ⟨hsaved, ⟨n, hn, hf⟩ | ⟨s, he, ht, hs⟩⟩ :=
      write_cases (c := c) (f := (·.insertMessage rows r))
    · rcases insertMessage_cases (readMessages_ok hm) h with
        ⟨s, hs, -⟩ | ⟨n', t', ht, hlt, hp, hl⟩
      · rw [hs] at hf
        cases hf
      · rw [ht] at hf
        cases hf
        generalize hw : c.write _ = p at *
        obtain ⟨_, c'⟩ := p
        cases hn
        exact ⟨hsaved, Or.inl ⟨_, rfl, rfl, hlt, hp, hl⟩⟩
    · generalize hw : c.write _ = p at *
      obtain ⟨_, c'⟩ := p
      cases he
      refine ⟨hsaved, Or.inr ⟨?_, congrArg (Tables.ledger · _) ht⟩⟩
      rintro x ⟨⟩
      rcases hs with hs | hs
      · exact hs
      · rcases insertMessage_cases (readMessages_ok hm) h with ⟨s', hs', hok⟩ | ⟨n', t', ht', -⟩
        · rw [hs] at hs'
          cases hs'
          exact hok
        · rw [hs] at ht'
          cases ht'

/-- A connection answers every call about a destination as its ledger says. -/
theorem perform_answers (call : Call) (h : (c.tables.ledger call.destination).Sound) :
    (perform c call).2.saved = c.saved ∧
    (c.tables.ledger call.destination).Answers Text.beforeNul call (perform c call).1
      ((perform c call).2.tables.ledger call.destination) := by
  cases call with
  | append r => exact append_answers h
  | persist d k w =>
    unfold perform
    cases hs : c.tables.readSubscriptions with
    | error e => exact ⟨rfl, internal_wrote⟩
    | ok subscribers => exact reported_wrote (updateAcked_cases (readSubscriptions_ok hs))
  | put s retroactive =>
    unfold perform
    cases hs : c.tables.readSubscriptions with
    | error e => exact ⟨rfl, internal_wrote⟩
    | ok subscribers =>
      cases hm : c.tables.readMessages with
      | error e => exact ⟨rfl, internal_wrote⟩
      | ok rows =>
        exact reported_wrote (upsert_cases _ (readSubscriptions_ok hs) (readMessages_ok hm) h)
  | delete d k =>
    unfold perform
    cases hs : c.tables.readSubscriptions with
    | error e => exact ⟨rfl, internal_wrote⟩
    | ok subscribers => exact reported_wrote (deleteSubscriber_cases (readSubscriptions_ok hs))
  | load d k =>
    refine ⟨rfl, rfl, ?_⟩
    intro w hw
    obtain ⟨row, hrow, rfl⟩ := queried_ok hw
    simp only [Call.destination, ← subscriber_ok hrow]
    cases row <;> rfl
  | scanAfter d k w limit =>
    simp only [Call.destination] at h ⊢
    by_cases hl : limit = 0
    · simp only [perform, hl, if_true]
      exact ⟨trivial, rfl, List.nil_prefix⟩
    · simp only [perform, hl, if_false]
      refine ⟨trivial, rfl, ?_⟩
      cases hj : c.tables.joined (.of d k) fun _ => w.sequence with
      | error e => exact List.nil_prefix
      | ok rows =>
        have := joined_rows (f := fun _ => w) h (fun _ => rfl) hj
        exact this ▸ limited_prefix ..
  | scanAll d k =>
    simp only [Call.destination, perform] at h ⊢
    refine ⟨trivial, rfl, ?_⟩
    cases hj : c.tables.joined (.of d k) (·.acked.sequence) with
    | error e => exact List.nil_prefix
    | ok rows =>
      have := joined_rows (f := (·.acked)) h (fun _ => rfl) hj
      exact this ▸ List.prefix_refl _
  | get d k =>
    refine ⟨rfl, rfl, ?_⟩
    intro o ho
    obtain ⟨row, hrow, rfl⟩ := queried_ok ho
    exact subscriber_ok hrow
  | resolve => exact ⟨rfl, rfl⟩
  | count => exact ⟨rfl, rfl⟩
  | list => exact ⟨rfl, rfl⟩

/-- A statement changes nothing of a connection but its tables and who holds the lock. -/
theorem write_kept {α : Type} {c : Connection}
    {f : Tables → Except Status (α × Tables)} :
    ∃ t w, (c.write f).2 = { c with tables := t, writing := w } := by
  unfold Connection.write
  split
  · exact ⟨_, _, rfl⟩
  · simp only
    split <;> exact ⟨_, _, rfl⟩

theorem perform_kept (c : Connection) (call : Call) :
    ∃ t w, (perform c call).2 = { c with tables := t, writing := w } := by
  cases call with
  | append r =>
    simp only [perform]
    split
    · exact ⟨_, _, rfl⟩
    · rename_i rows _
      have hw := write_kept (c := c) (f := (·.insertMessage rows r))
      split <;> rename_i hc <;> rw [hc] at hw <;> exact hw
  | persist | put | delete =>
    simp only [perform]
    split
    · exact ⟨_, _, rfl⟩
    · exact write_kept
  | scanAfter =>
    simp only [perform]
    split <;> exact ⟨_, _, rfl⟩
  | _ => exact ⟨_, _, rfl⟩

end DurableTopic.Repository.Embedded

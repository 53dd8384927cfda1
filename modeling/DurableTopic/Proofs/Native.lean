import DurableTopic.Repository.Embedded.Native
/-! The embedded repository, step by step: on the tables of a connection, calls whose statements are
prepared and stepped one after the other are the calls of the repository. -/
namespace DurableTopic.Repository.Embedded

variable {c : Connection} {s : Status} {h : Handle} {call : Call} {t : Tables}

/-- What a statement that writes is refused with. -/
def Native (s : Status) : Prop :=
  s.code = .busy ∨ s.code = .constraintViolation ∨ s.code = .internalError

theorem status_of (h : Native s) : (Refusal.of s).status = s := by
  obtain ⟨code, message⟩ := s
  rcases h with h | h | h <;> (simp only at h; subst h; rfl)

theorem native_refusal {e : Event} (h : t.refusal? e = some s) : Native s := by
  obtain ⟨x, -, rfl⟩ := Option.map_eq_some_iff.1 h
  exact Or.inr (Or.inl rfl)

theorem native_mayWrite (h : c.mayWrite = .error s) : Native s := by
  unfold Connection.mayWrite at h
  split at h
  · cases h
    exact Or.inr (Or.inr rfl)
  · split at h
    · cases h
      exact Or.inl rfl
    · cases h

/-- A write is refused by the database or by what it does. -/
theorem native_write {α : Type} {f : Tables → Except Status (α × Tables)}
    (hf : ∀ t s, f t = .error s → Native s) {r : Except Status α × Connection}
    (h : c.write f = r) : ∀ s, r.1 = .error s → Native s := by
  subst h
  intro s hs
  unfold Connection.write at hs
  split at hs
  · rename_i hm
    cases hs
    exact native_mayWrite hm
  · dsimp only at hs
    split at hs
    · rename_i hm
      cases hs
      exact hf _ _ hm
    · cases hs

theorem native_insertMessage {rows : List Row} {r : Row} (h : t.insertMessage rows r = .error s) :
    Native s := by
  unfold Tables.insertMessage at h
  split at h
  · rename_i hr
    cases h
    exact native_refusal hr
  · dsimp only at h
    split at h
    · cases h
      exact Or.inr (Or.inl rfl)
    · cases h

theorem native_updateAcked {rows : List SubscriptionRow} {k : KeyColumns} {w : Watermark}
    (h : t.updateAcked rows k w = .error s) : Native s := by
  unfold Tables.updateAcked at h
  dsimp only at h
  split at h
  · rename_i hr
    cases h
    exact native_refusal hr
  · cases h

theorem native_upsert {rows : List SubscriptionRow} {messages : List Row} {x : Subscription}
    {b : Bool} (h : t.upsert rows messages x b = .error s) : Native s := by
  unfold Tables.upsert at h
  dsimp only at h
  split at h
  · rename_i hr
    cases h
    exact native_refusal hr
  · rename_i hr
    cases h
    exact native_refusal hr
  · cases h
  · cases h

theorem native_deleteSubscriber {rows : List SubscriptionRow} {k : KeyColumns}
    (h : t.deleteSubscriber rows k = .error s) : Native s := by
  unfold Tables.deleteSubscriber at h
  split at h
  · rename_i hr
    cases h
    exact native_refusal hr
  · cases h

section

variable {α β : Type} {q : Query} {e : String} {refuse : Refusal → β} {f : q.Outcome → β}
  {x : Except String α} {a : α}

theorem run_refused (h : Connection.named c.tables q = .error e) :
    Connection.engine.run q refuse f c = (refuse (.of (internal e)), c) := by
  simp [Engine.run, Connection.engine, h]

theorem run_prepared (h : Connection.named c.tables q = .ok ()) :
    Connection.engine.run q refuse f c = (f (c.step q).1, (c.step q).2) := by
  simp [Engine.run, Connection.engine, h]

/-- What only reads is prepared, and then gives what it finds. -/
theorem read_engine {f : q.Outcome → Except Failure β} {g : α → β}
    (hn : Connection.named c.tables q = x.map fun _ => ()) (hc : (c.step q).2 = c)
    (hf : ∀ a, x = .ok a → f (c.step q).1 = .ok (g a)) :
    Connection.engine.read q f c = (queried x g, c) := by
  unfold Engine.read
  cases hx : x with
  | error e =>
    rw [run_refused (hn.trans (by rw [hx]; rfl))]
    rfl
  | ok a =>
    rw [run_prepared (hn.trans (by rw [hx]; rfl)), hf a hx, hc]
    rfl

theorem scan_engine {q : Query} {f : q.Outcome → Scan} {x : Except String (List Row)}
    (hn : Connection.named c.tables q = x.map fun _ => ()) (hc : (c.step q).2 = c)
    (hf : ∀ rows, x = .ok rows → f (c.step q).1 = { rows }) :
    Connection.engine.run q (fun r => ⟨[], .ok (internal r.text)⟩) f c = (scanned x, c) := by
  cases hx : x with
  | error e =>
    rw [run_refused (hn.trans (by rw [hx]; rfl))]
    rfl
  | ok rows =>
    rw [run_prepared (hn.trans (by rw [hx]; rfl)), hf rows hx, hc]
    rfl

theorem read?_first {g : α → Option β} (h : x = .ok a) :
    (Connection.first x g).read? = .ok (g a) := by
  subst h
  cases hg : g a <;> simp [Connection.first, hg, First.read?]

end

/-- What a write reports is what its statement gives. -/
theorem write_engine {q : Query} {f : q.Outcome → Status} {r : Except Status Unit × Connection}
    (hn : Connection.named c.tables q = .ok ())
    (hf : (f (c.step q).1, (c.step q).2) = ((Connection.wrote r).1.status, (Connection.wrote r).2))
    (h : ∀ s, r.1 = .error s → Native s) : Connection.engine.write q f c = (reported r.1, r.2) := by
  obtain ⟨hf, hc⟩ := Prod.mk.inj hf
  rw [Engine.write, run_prepared hn, hf, hc]
  obtain ⟨s | _, c'⟩ := r
  · have hs : (Refusal.of s).status = s := status_of (h s rfl)
    simp [Connection.wrote, reported, First.status, hs]
  · rfl

/-- What is named by a statement about messages and subscribers. -/
theorem named_joined {k : KeyColumns} {above : SubscriptionRow → Int} :
    (do let _ ← t.readMessages; discard t.readSubscriptions : Except String Unit) =
      (t.joined k above).map fun _ => () := by
  unfold Tables.joined
  cases t.readMessages <;> cases t.readSubscriptions <;> rfl

/-- What is named by a statement about messages alone, or about subscribers alone. -/
theorem named_one {α : Type} (x : Except String α) :
    (discard x : Except String Unit) = x.map fun _ => () := by
  cases x <;> rfl

/-- A message that was inserted has the next number. -/
theorem numbered {rows : List Row} {r : Row} {n : Int} {c' : Connection}
    (h : c.write (·.insertMessage rows r) = (.ok n, c')) :
    n = (Tables.greatest rows (Text.beforeNul r.destination)).getD 0 + 1 := by
  unfold Connection.write at h
  split at h
  · cases h
  · dsimp only at h
    split at h
    · cases h
    · rename_i hi
      cases h
      unfold Tables.insertMessage at hi
      dsimp only at hi
      split at hi
      · cases hi
      · split at hi
        · cases hi
        · cases hi
          rfl

theorem append_engine {r : Row} : Connection.engine.append r c = perform c (.append r) := by
  simp only [Engine.append, perform]
  cases hm : c.tables.readMessages with
  | error e =>
    rw [run_refused (e := e) (by simp only [Connection.named, named_one, hm]; rfl)]
    rfl
  | ok rows =>
    have ready : (discard c.tables.readMessages : Except String Unit) = .ok () := by rw [hm]; rfl
    have highest : (c.step (.highest r.destination)) =
        (.row ((Tables.greatest rows (Text.beforeNul r.destination)).getD 0), c) := by
      simp only [Connection.step, hm]; rfl
    have insert (n : Int) : c.step (.insert { r with sequence := n }) =
        Connection.wrote (c.write (·.insertMessage rows r)) := by
      simp only [Connection.step, hm]; rfl
    rw [run_prepared (by exact ready), highest]
    dsimp only [First.next]
    rw [run_prepared (by exact ready), insert]
    cases hw : c.write (·.insertMessage rows r) with
    | mk x c' =>
      cases x with
      | error s =>
        have hs : (Refusal.of s).status = s :=
          status_of (native_write (fun _ _ => native_insertMessage) hw s rfl)
        simp only [Connection.wrote, First.status, hs]
      | ok n =>
        rw [numbered hw]
        rfl

/-- Stepped on a connection, a call is the call of the repository. -/
theorem perform_engine : Connection.engine.perform call c = perform c call := by
  cases call with
  | append r => exact append_engine
  | resolve d id =>
    refine read_engine ?_ rfl fun a ha => read?_first ha
    simp only [Connection.named, Tables.resolve]
    cases c.tables.readMessages <;> rfl
  | persist d k w =>
    simp only [Engine.perform, perform]
    cases hs : c.tables.readSubscriptions with
    | error e => exact run_refused (by simp only [Connection.named, named_one, hs]; rfl)
    | ok rows =>
      refine write_engine (r := c.write (·.updateAcked rows (.of d k) w))
        (by simp only [Connection.named, named_one, hs]; rfl) ?_
        (native_write (fun _ _ => native_updateAcked) rfl)
      simp only [Connection.step, hs, Connection.held]
  | load d k =>
    refine read_engine ?_ rfl fun a ha => ?_
    · simp only [Connection.named, Tables.subscriber]
      cases c.tables.readSubscriptions <;> rfl
    · rw [Connection.step, read?_first ha]
      cases a <;> rfl
  | scanAfter d k w limit =>
    simp only [Engine.perform, perform]
    split
    · rfl
    · refine scan_engine ?_ rfl fun rows h => ?_
      · refine named_joined.trans (?_ : (c.tables.joined (.of d k) fun _ => w.sequence).map _ = _)
        cases c.tables.joined (.of d k) fun _ => w.sequence <;> rfl
      · rw [Connection.step, h]
        rfl
  | scanAll d k =>
    refine scan_engine named_joined rfl fun rows h => ?_
    rw [Connection.step, h]
    rfl
  | count d k =>
    refine read_engine named_joined rfl fun rows h => ?_
    rw [Connection.step, h]
    rfl
  | put x b =>
    simp only [Engine.perform, perform]
    cases hs : c.tables.readSubscriptions with
    | error e => exact run_refused (by simp only [Connection.named, hs]; rfl)
    | ok rows =>
      cases hm : c.tables.readMessages with
      | error e => exact run_refused (by simp only [Connection.named, hs, hm]; rfl)
      | ok messages =>
        refine write_engine (r := c.write (·.upsert rows messages x b))
          (by simp only [Connection.named, hs, hm]; rfl) ?_
          (native_write (fun _ _ => native_upsert) rfl)
        simp only [Connection.step, hs, hm, Connection.held]
  | get d k =>
    refine read_engine ?_ rfl fun a ha => read?_first ha
    simp only [Connection.named, Tables.subscriber]
    cases c.tables.readSubscriptions <;> rfl
  | delete d k =>
    simp only [Engine.perform, perform]
    cases hs : c.tables.readSubscriptions with
    | error e => exact run_refused (by simp only [Connection.named, named_one, hs]; rfl)
    | ok rows =>
      refine write_engine (r := c.write (·.deleteSubscriber rows (.of d k)))
        (by simp only [Connection.named, named_one, hs]; rfl) ?_
        (native_write (fun _ _ => native_deleteSubscriber) rfl)
      simp only [Connection.step, hs, Connection.held]
  | list d =>
    refine read_engine ?_ rfl fun a ha => ?_
    · simp only [Connection.named, Tables.subscribers]
      cases c.tables.readSubscriptions <;> rfl
    · rw [Connection.step, ha]
      rfl

/-- Begun, committed and given up on a connection, a transaction is one of the repository. -/
theorem begin_engine : Connection.engine.begin c = begin c := by
  simp only [Engine.begin, Connection.engine, Connection.control, begin]
  cases hw : c.mayWrite with
  | error s =>
    simp only [Connection.begin, hw, if_true]
    rfl
  | ok =>
    generalize c.begin true = x
    obtain ⟨_ | _, _⟩ := x <;> rfl

theorem commit_engine : Connection.engine.commit h c = commit h c := by
  simp only [Engine.commit, Connection.engine, Connection.control, commit]
  generalize c.commit = x
  obtain ⟨_ | _, _⟩ := x <;> rfl

theorem close_engine : Connection.engine.close h c = close h c := by
  simp only [Engine.close, Connection.engine, Connection.control, close]
  generalize c.rollback = x
  split
  · rfl
  · obtain ⟨_ | _, _⟩ := x <;> rfl

end DurableTopic.Repository.Embedded

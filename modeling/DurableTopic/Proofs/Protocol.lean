import DurableTopic.Proofs.System
/-! The order in which a call asks for things. No call asks a listener or the cache of cursors for
anything inside its transaction, and a pass keeps in its slot exactly what was accepted. -/
namespace DurableTopic.Store

/-- How far the transaction of a call has come. -/
inductive Phase where
  | closed | active | ended
  deriving Repr, DecidableEq

/-- Where a call stands, by what was answered. -/
structure Stage where
  phase : Phase := .closed
  lease : Option Nat := none
  /-- What was found in the leased slot, or last put there. -/
  cursor : Option Watermark := none
  /-- The position above which messages are offered. -/
  mark : Option Watermark := none
  rows : List Row := []
  /-- The subscriber may be deleted, and its cursor is not evicted yet. -/
  forgot : Bool := false
  deriving Repr, DecidableEq

namespace Stage

/-- The rows that are left to offer. -/
def ahead (s : Stage) : List Row :=
  match s.mark with
  | none => s.rows
  | some w => s.rows.dropWhile fun r => !r.mark.isAhead w

/-- The stage after the first of the rows that are left is accepted. -/
def passed (s : Stage) : Stage :=
  match s.ahead with
  | [] => s
  | r :: rest => { s with mark := s.mark.map fun _ => r.mark, rows := rest }

/-- The stage after the listener gave up. If that was no exception, the call falls back to its
cursor. -/
def failed (s : Stage) (f : Failure) : Stage :=
  if f.isException then s else { s with mark := s.cursor, rows := [] }

/-- The stage after an answer. A commit that fails takes back what was read of the position. -/
def next (s : Stage) : Exchange → Stage
  | ⟨.begin, .ok ()⟩ => { s with phase := .active }
  | ⟨.call (.load ..), .ok w⟩ => { s with mark := some w }
  | ⟨.call (.scanAfter ..), a⟩ | ⟨.call (.scanAll ..), a⟩ => { s with rows := a.rows }
  | ⟨.call (.delete ..), _⟩ => { s with forgot := true }
  | ⟨.commit, .ok ()⟩ => { s with phase := .ended }
  | ⟨.commit, .error _⟩ => { s with mark := s.cursor }
  | ⟨.close, _⟩ => { s with phase := .closed }
  | ⟨.acquire _, l⟩ => { s with lease := some l.slot, cursor := l.cursor, mark := l.cursor }
  | ⟨.keep _ w, _⟩ => { s with cursor := some w }
  | ⟨.release _, _⟩ => { s with lease := none }
  | ⟨.evict _, _⟩ => { s with forgot := false }
  | ⟨.offer _, .ok true⟩ => s.passed
  | ⟨.hasCapacity, .error f⟩ | ⟨.offer _, .error f⟩ => s.failed f
  | _ => s

section

variable {s : Stage} {e : Effect} {a : e.Reply} {f : Failure}

theorem failed_exception (h : f.isException) : s.failed f = s := if_pos h

theorem failed_object (h : f.isException = false) :
    s.failed f = { s with mark := s.cursor, rows := [] } := if_neg (by simp [h])

@[simp] theorem failed_phase : (s.failed f).phase = s.phase := by
  unfold failed
  split <;> rfl

@[simp] theorem failed_lease : (s.failed f).lease = s.lease := by
  unfold failed
  split <;> rfl

@[simp] theorem failed_cursor : (s.failed f).cursor = s.cursor := by
  unfold failed
  split <;> rfl

@[simp] theorem failed_forgot : (s.failed f).forgot = s.forgot := by
  unfold failed
  split <;> rfl

theorem failed_rows : (s.failed f).rows ⊆ s.rows := by
  unfold failed
  split
  · exact fun _ h => h
  · exact List.nil_subset _

@[simp] theorem passed_phase : s.passed.phase = s.phase := by
  unfold passed
  split <;> rfl

@[simp] theorem passed_lease : s.passed.lease = s.lease := by
  unfold passed
  split <;> rfl

@[simp] theorem passed_cursor : s.passed.cursor = s.cursor := by
  unfold passed
  split <;> rfl

@[simp] theorem passed_forgot : s.passed.forgot = s.forgot := by
  unfold passed
  split <;> rfl

theorem ahead_subset : s.ahead ⊆ s.rows := by
  unfold ahead
  split
  · exact fun _ h => h
  · exact (List.dropWhile_sublist _).subset

theorem passed_rows : s.passed.rows ⊆ s.rows := by
  unfold passed
  split
  · exact fun _ h => h
  · rename_i row rest ha
    intro x hx
    exact ahead_subset (ha ▸ List.mem_cons_of_mem _ hx)

theorem next_phase (hb : e ≠ .begin) (hc : e ≠ .commit) (hd : e ≠ .close) :
    (s.next ⟨e, a⟩).phase = s.phase := by
  cases e with
  | begin => exact absurd rfl hb
  | commit => exact absurd rfl hc
  | close => exact absurd rfl hd
  | call c =>
    cases c with
    | load => rcases a with f | w <;> rfl
    | _ => rfl
  | hasCapacity | offer => rcases a with f | _ | _ <;> simp [next]
  | _ => rfl

theorem next_lease (ha : ∀ k, e ≠ .acquire k) (hr : ∀ i, e ≠ .release i) :
    (s.next ⟨e, a⟩).lease = s.lease := by
  cases e with
  | acquire k => exact absurd rfl (ha k)
  | release i => exact absurd rfl (hr i)
  | begin | commit => rcases a with f | _ <;> rfl
  | call c =>
    cases c with
    | load => rcases a with f | w <;> rfl
    | _ => rfl
  | hasCapacity | offer => rcases a with f | _ | _ <;> simp [next]
  | _ => rfl

theorem next_cursor (ha : ∀ k, e ≠ .acquire k) (hk : ∀ i w, e ≠ .keep i w) :
    (s.next ⟨e, a⟩).cursor = s.cursor := by
  cases e with
  | acquire k => exact absurd rfl (ha k)
  | keep i w => exact absurd rfl (hk i w)
  | begin | commit => rcases a with f | _ <;> rfl
  | call c =>
    cases c with
    | load => rcases a with f | w <;> rfl
    | _ => rfl
  | hasCapacity | offer => rcases a with f | _ | _ <;> simp [next]
  | _ => rfl

end

end Stage

/-- The repository calls that a call may make. -/
def Request.mayCall (d : String) : Request → Repository.Call → Prop
  | publish _, .append r => r.destination = d
  | acknowledge .., .resolve d' _ => d' = d
  | acknowledge k .., .persist d' j _ => d' = d ∧ j = k
  | recoverNext k .., .load d' j => d' = d ∧ j = k
  | recoverNext k .., .scanAfter d' j _ _ => d' = d ∧ j = k
  | recoverAll k _, .scanAll d' j => d' = d ∧ j = k
  | subscribe info retroactive, .put s b => s.destination = d ∧ s.key = info.key ∧ b = retroactive
  | lookup k, .get d' j => d' = d ∧ j = k
  | subscriptions, .list d' => d' = d
  | unsubscribe k, .delete d' j => d' = d ∧ j = k
  | messageCount k, .count d' j => d' = d ∧ j = k
  | _, _ => False

namespace Stage

/-- A listener is asked outside of transactions, and about a row. A pass under a cursor has a
position by then. -/
structure Listens (r : Request) (s : Stage) : Prop where
  phase : s.phase = .closed
  forgot : s.forgot = false
  redelivers : ∃ k, r.redelivers k
  ahead : s.ahead ≠ []
  ready : ∀ k, r.batches k → s.lease.isSome ∧ s.cursor.isSome ∧ s.mark.isSome

/-- A position is loaded where there is none, and rows are read above it. -/
def Reads (s : Stage) : Repository.Call → Prop
  | .load .. => s.cursor = none ∧ s.rows = []
  | .scanAfter _ _ w _ => s.mark = some w
  | _ => True

/-- What a call may ask for at a stage. -/
def Permits (d : String) (r : Request) (s : Stage) : Effect → Prop
  | .begin => s.phase = .closed
  | .call c => s.phase = .active ∧ r.mayCall d c ∧ s.Reads c
  | .commit => s.phase = .active ∧ (s.cursor = s.mark ∨ s.cursor = none ∧ s.rows = []) ∧
    ∀ k, r = .unsubscribe k → s.forgot
  | .close => s.phase ≠ .closed
  | .acquire k => s.phase = .closed ∧ s.lease = none ∧ s.rows = [] ∧ r.batches k
  | .keep i w => s.phase = .closed ∧ s.lease = some i ∧ s.mark = some w
  | .release i => s.phase = .closed ∧ s.lease = some i ∧ s.cursor = s.mark
  | .reset k => s.phase = .closed ∧ r = .resetBatching k
  | .evict k => s.phase = .closed ∧ r = .unsubscribe k
  | .peek k => s.phase = .closed ∧ r = .cachedWatermark k
  | .hasCapacity => s.Listens r
  | .offer o => s.Listens r ∧ ∃ row rest, s.ahead = row :: rest ∧ o.IsOf row
  | _ => True

/-- Only passes under a cursor have a position, and only deletions make an eviction due. -/
structure Fits (r : Request) (s : Stage) : Prop where
  plain : (∀ k, r.batches k = false) → s.lease = none ∧ s.cursor = none ∧ s.mark = none
  forgot : s.forgot → ∃ k, r = .unsubscribe k

theorem fits_initial {r : Request} : ({} : Stage).Fits r := ⟨fun _ => ⟨rfl, rfl, rfl⟩, by simp⟩

theorem fits_failed {r : Request} {s : Stage} {f : Failure} (h : s.Fits r) : (s.failed f).Fits r := by
  unfold failed
  split
  · exact h
  · refine ⟨fun hr => ?_, h.forgot⟩
    obtain ⟨hl, hc, -⟩ := h.plain hr
    exact ⟨hl, hc, hc⟩

theorem fits_passed {r : Request} {s : Stage} (h : s.Fits r) : s.passed.Fits r := by
  unfold passed
  split
  · exact h
  · refine ⟨fun hr => ?_, h.forgot⟩
    obtain ⟨hl, hc, hm⟩ := h.plain hr
    exact ⟨hl, hc, by simp [hm]⟩

theorem fits_next {d : String} {r : Request} {s : Stage} {e : Effect} (h : s.Fits r)
    (hp : s.Permits d r e) (a : e.Reply) : (s.next ⟨e, a⟩).Fits r := by
  cases e with
  | begin => rcases a with f | _ <;> exact ⟨h.plain, h.forgot⟩
  | commit =>
    rcases a with f | _
    · refine ⟨fun hr => ?_, h.forgot⟩
      obtain ⟨hl, hc, -⟩ := h.plain hr
      exact ⟨hl, hc, hc⟩
    · exact ⟨h.plain, h.forgot⟩
  | call c =>
    obtain ⟨-, hc, -⟩ := hp
    cases c with
    | load d k =>
      cases r <;> simp only [Request.mayCall] at hc
      rcases a with f | w
      · exact h
      · exact ⟨fun hr => absurd (hr k) (by simp [Request.batches, hc.2]), h.forgot⟩
    | delete d k =>
      cases r <;> simp only [Request.mayCall] at hc
      exact ⟨h.plain, fun _ => ⟨_, rfl⟩⟩
    | scanAfter | scanAll => exact ⟨h.plain, h.forgot⟩
    | _ => exact h
  | acquire k => exact ⟨fun hr => absurd (hr k) (by simp [hp.2.2.2]), h.forgot⟩
  | keep i w =>
    refine ⟨fun hr => ?_, h.forgot⟩
    have := hp.2.1
    simp [(h.plain hr).1] at this
  | release => exact ⟨fun hr => ⟨rfl, (h.plain hr).2⟩, h.forgot⟩
  | evict => exact ⟨h.plain, by simp [next]⟩
  | close => exact ⟨h.plain, h.forgot⟩
  | hasCapacity =>
    rcases a with f | _
    · exact fits_failed h
    · exact h
  | offer o =>
    rcases a with f | _ | _
    · exact fits_failed h
    · exact h
    · exact fits_passed h
  | _ => exact h

/-- Nothing is open, held or due. -/
def Rests (s : Stage) : Prop := s.phase = .closed ∧ s.lease = none ∧ s.forgot = false

end Stage

/-- An operation asks only for what it may ask for, and where it ends a condition holds. -/
def Operation.Follows {α : Type} (d : String) (r : Request) (Q : Stage → α → Prop) :
    Operation α → Stage → Prop
  | .done a, s => Q s a
  | .perform e next, s => s.Permits d r e ∧ ∀ a, (next a).Follows d r Q (s.next ⟨e, a⟩)

/-- The same for an operation that may fail. -/
def Op.Follows {α : Type} (d : String) (r : Request) (Q : Stage → Except Failure α → Prop)
    (x : Op α) (s : Stage) : Prop := Operation.Follows d r Q x.run s

section

variable {α β : Type} {d : String} {r : Request} {s : Stage}

theorem Operation.follows_bind {Q : Stage → β → Prop} {x : Operation α} {f : α → Operation β} :
    (x.bind f).Follows d r Q s ↔ x.Follows d r (fun s a => (f a).Follows d r Q s) s := by
  induction x generalizing s with
  | done a => rfl
  | perform e next ih => simp only [bind, Follows, ih]

theorem Operation.follows_mono {Q Q' : Stage → α → Prop} {x : Operation α}
    (hq : ∀ s a, Q s a → Q' s a) (h : x.Follows d r Q s) : x.Follows d r Q' s := by
  induction x generalizing s with
  | done a => exact hq _ _ h
  | perform e next ih => exact ⟨h.1, fun a => ih a (h.2 a)⟩

namespace Op

variable {Q Q' : Stage → Except Failure α → Prop} {x : Op α}

theorem follows_mono (hq : ∀ s a, Q s a → Q' s a) (h : x.Follows d r Q s) : x.Follows d r Q' s :=
  Operation.follows_mono hq h

theorem follows_bind {Q : Stage → Except Failure β → Prop} {f : α → Op β} :
    (x >>= f).Follows d r Q s ↔ x.Follows d r (fun s a =>
      match a with
      | .ok a => (f a).Follows d r Q s
      | .error e => Q s (.error e)) s := by
  refine Operation.follows_bind.trans ?_
  constructor <;> refine Operation.follows_mono fun s a h => ?_ <;> cases a <;> exact h

@[simp] theorem follows_ofExcept {a : Except Failure α} :
    (ofExcept a).Follows d r Q s ↔ Q s a := by
  cases a <;> exact Iff.rfl

theorem follows_attempt {Q : Stage → Except Failure (Except Failure α) → Prop} :
    (attempt x).Follows d r Q s ↔ x.Follows d r (fun s a => Q s (.ok a)) s := by
  refine Operation.follows_bind.trans ?_
  exact Iff.rfl

theorem follows_inContext {context : String} :
    (inContext context x).Follows d r Q s ↔
      x.Follows d r (fun s a => Q s (a.mapError (Failure.inContext context))) s :=
  Operation.follows_bind

/-- A body that stays in its transaction is followed by a commit and in any case by a close. -/
theorem follows_inTransaction (hs : s.phase = .closed) (hb : ∀ f, Q s (.error f))
    (h : x.Follows d r (fun s a => s.phase = .active ∧
      match a with
      | .ok a => (s.cursor = s.mark ∨ s.cursor = none ∧ s.rows = []) ∧
        (∀ k, r = .unsubscribe k → s.forgot) ∧ Q { s with phase := .closed } (.ok a) ∧
        ∀ f, Q { s with phase := .closed, mark := s.cursor } (.error f)
      | .error f => Q { s with phase := .closed } (.error f)) { s with phase := .active }) :
    (inTransaction x).Follows d r Q s := by
  refine follows_bind.2 ⟨hs, ?_⟩
  rintro (f | ⟨⟨⟩⟩)
  · exact hb f
  · refine follows_bind.2 (follows_attempt.2 (follows_bind.2 (follows_mono ?_ h)))
    rintro s (f | a) ⟨hp, hq⟩
    · refine follows_bind.2 ⟨by simp [Stage.Permits, hp], fun _ => ?_⟩
      exact hq
    · refine follows_bind.2 ⟨⟨hp, hq.1, hq.2.1⟩, ?_⟩
      rintro (f | ⟨⟨⟩⟩)
      · refine follows_bind.2 ⟨by simp [Stage.Permits, Stage.next, hp], fun _ => ?_⟩
        exact hq.2.2.2 f
      · refine follows_bind.2 ⟨by simp [Stage.Permits, Stage.next], fun _ => ?_⟩
        exact hq.2.2.1

/-- What is told to the log and the telemetry does not count. -/
theorem follows_observed {P : Stage → Prop} {operation destination : String}
    {key : Option SubscriberKey} (h : x.Follows d r (fun s _ => P s) s) :
    (observed operation destination key x).Follows d r (fun s _ => P s) s := by
  refine follows_bind.2 ⟨trivial, fun span => ?_⟩
  refine follows_bind.2 (follows_attempt.2 (follows_mono ?_ h))
  rintro s (f | a) hp
  · refine follows_bind.2 ?_
    unfold report
    split
    · exact ⟨trivial, fun _ => ⟨trivial, fun _ => ⟨trivial, fun _ => ⟨trivial, fun _ => hp⟩⟩⟩⟩
    · exact ⟨trivial, fun _ => hp⟩
  · exact ⟨trivial, fun _ => ⟨trivial, fun _ => hp⟩⟩

theorem follows_require {status : Status} {context : String}
    {Q : Stage → Except Failure Unit → Prop} :
    (require status context).Follows d r Q s ↔ Q s (status.require context) :=
  follows_ofExcept

theorem follows_validate {k : SubscriberKey} {Q : Stage → Except Failure Unit → Prop}
    (h : ∀ a, Q s a) : (validate k).Follows d r Q s := by
  unfold validate
  split <;> exact h _

/-- A call that only reads or writes in a transaction of its own. -/
theorem follows_transacted {P : Stage → Prop} {context : String} (hs : s.phase = .closed)
    (hb : P s)
    (h : x.Follows d r (fun s _ => s.phase = .active ∧ s.cursor = s.mark ∧
      (∀ k, r = .unsubscribe k → s.forgot) ∧ P { s with phase := .closed })
      { s with phase := .active }) :
    (inContext context (inTransaction x)).Follows d r (fun s _ => P s) s := by
  refine follows_inContext.2 (follows_inTransaction hs (fun _ => hb) (follows_mono ?_ h))
  rintro s (f | a) ⟨hp, hm, hr, hc⟩
  · exact ⟨hp, hc⟩
  · exact ⟨hp, Or.inl hm, hr, hc, fun _ => hm ▸ hc⟩

end Op
end

section

variable {d : String} {k : SubscriberKey}

theorem rests_initial : ({} : Stage).Rests := ⟨rfl, rfl, rfl⟩

open Op

theorem follows_validateMessage {r : Request} {s : Stage} {m : Message}
    {Q : Stage → Except Failure Unit → Prop} (h : ∀ a, Q s a) :
    (validateMessage d m).Follows d r Q s := by
  unfold validateMessage
  split <;> split
  all_goals exact h _

theorem rests_transacted {r : Request} (hr : ∀ k, r ≠ .unsubscribe k) :
    ({ phase := .active } : Stage).phase = .active ∧ (none : Option Watermark) = none ∧
      (∀ k, r = .unsubscribe k → false) ∧ ({} : Stage).Rests :=
  ⟨rfl, rfl, fun k hk => absurd hk (hr k), rests_initial⟩

theorem publish_follows {m : Message} :
    (publish d m).Follows d (.publish m) (fun s _ => s.Rests) {} := by
  refine follows_observed (follows_bind.2 (follows_validateMessage ?_))
  rintro (f | _)
  · exact rests_initial
  refine follows_bind.2 (follows_mono ?_ (follows_transacted rfl rests_initial ?_))
  · rintro s (f | n) h
    · exact h
    · exact ⟨trivial, fun _ => h⟩
  · refine follows_bind.2 ⟨⟨rfl, rfl, trivial⟩, ?_⟩
    rintro (f | a)
    · exact rests_transacted (by simp)
    · refine follows_bind.2 (follows_require.2 ?_)
      cases a.status.require _ <;> exact rests_transacted (by simp)

theorem acknowledge_follows {id : String} {kind : AckKind} :
    (acknowledge d k id kind).Follows d (.acknowledge k id kind) (fun s _ => s.Rests) {} := by
  cases kind with
  | unmatched => exact ⟨trivial, fun _ => rests_initial⟩
  | standard =>
    refine follows_observed (follows_bind.2 (follows_validate ?_))
    rintro (f | _)
    · exact rests_initial
    refine follows_bind.2 (follows_mono ?_ (follows_transacted rfl rests_initial ?_))
    · rintro s (f | n) h
      · exact h
      · exact ⟨trivial, fun _ => h⟩
    · refine follows_bind.2 ⟨⟨rfl, rfl, trivial⟩, ?_⟩
      rintro (f | _ | w)
      · exact rests_transacted (by simp)
      · exact rests_transacted (by simp)
      · refine follows_bind.2 ⟨⟨rfl, ⟨rfl, rfl⟩, trivial⟩, ?_⟩
        rintro (f | status)
        · exact rests_transacted (by simp)
        · refine follows_bind.2 (follows_require.2 ?_)
          cases status.require _ <;> exact rests_transacted (by simp)

theorem subscribe_follows {info : Subscription} {retroactive : Bool} :
    (subscribe d info retroactive).Follows d (.subscribe info retroactive)
      (fun s _ => s.Rests) {} := by
  refine follows_observed (follows_bind.2 (follows_validate ?_))
  rintro (f | _)
  · exact rests_initial
  have hrest : ∀ context, (inContext context <| inTransaction do
      let status ← Op.register ⟨d, info.key, info.selector, retroactive, .start⟩ retroactive
      require status context).Follows d (.subscribe info retroactive) (fun s _ => s.Rests) {} := by
    intro context
    refine follows_transacted rfl rests_initial ?_
    refine follows_bind.2 ⟨⟨rfl, ⟨rfl, rfl, rfl⟩, trivial⟩, ?_⟩
    rintro (f | status)
    · exact rests_transacted (by simp)
    · exact follows_require.2 (rests_transacted (by simp))
  simp only
  split
  · exact rests_initial
  · refine follows_bind.2 (follows_mono ?_ (hrest _))
    rintro s (f | _) h
    · exact h
    · exact ⟨trivial, fun _ => h⟩

theorem lookup_follows : (lookup d k).Follows d (.lookup k) (fun s _ => s.Rests) {} := by
  refine follows_observed (follows_bind.2 (follows_validate ?_))
  rintro (f | _)
  · exact rests_initial
  · exact follows_transacted rfl rests_initial
      ⟨⟨rfl, ⟨rfl, rfl⟩, trivial⟩, fun _ => rests_transacted (by simp)⟩

theorem subscriptions_follows :
    (subscriptions d).Follows d .subscriptions (fun s _ => s.Rests) {} :=
  follows_observed (follows_transacted rfl rests_initial
    ⟨⟨rfl, rfl, trivial⟩, fun _ => rests_transacted (by simp)⟩)

theorem messageCount_follows :
    (messageCount d k).Follows d (.messageCount k) (fun s _ => s.Rests) {} := by
  refine follows_observed (follows_bind.2 (follows_validate ?_))
  rintro (f | _)
  · exact rests_initial
  refine follows_bind.2 (follows_mono ?_ (follows_transacted rfl rests_initial
    ⟨⟨rfl, ⟨rfl, rfl⟩, trivial⟩, fun _ => rests_transacted (by simp)⟩))
  rintro s (f | n) h
  · exact h
  · exact ⟨trivial, fun _ => h⟩

/-- A deletion is followed by an eviction, also when it fails. -/
theorem unsubscribe_follows :
    (unsubscribe d k).Follows d (.unsubscribe k) (fun s _ => s.Rests) {} := by
  refine follows_observed (follows_bind.2 (follows_validate ?_))
  rintro (f | _)
  · exact rests_initial
  have hfree : ∀ context, (inContext context <| inTransaction do
      let status ← Op.forget d k
      require status context).Follows d (.unsubscribe k)
        (fun s _ => s.phase = .closed ∧ s.lease = none) {} := by
    intro context
    refine follows_transacted rfl ⟨rfl, rfl⟩ ?_
    refine follows_bind.2 ⟨⟨rfl, ⟨rfl, rfl⟩, trivial⟩, ?_⟩
    rintro (f | status)
    · exact ⟨rfl, rfl, fun _ _ => rfl, rfl, rfl⟩
    · exact follows_require.2 ⟨rfl, rfl, fun _ _ => rfl, rfl, rfl⟩
  refine follows_bind.2 (follows_attempt.2 (follows_mono ?_ (hfree _)))
  rintro s a ⟨hp, hl⟩
  refine follows_bind.2 ⟨⟨hp, rfl⟩, fun _ => ?_⟩
  refine follows_bind.2 (follows_ofExcept.2 ?_)
  cases a with
  | error f => exact ⟨hp, hl, rfl⟩
  | ok _ => exact ⟨trivial, fun _ => ⟨hp, hl, rfl⟩⟩

theorem resetBatching_follows :
    (resetBatching k).Follows d (.resetBatching k) (fun s _ => s.Rests) {} :=
  follows_bind.2 ⟨⟨rfl, rfl⟩, fun _ => ⟨trivial, fun _ => rests_initial⟩⟩

theorem cachedWatermark_follows :
    (cachedWatermark k).Follows d (.cachedWatermark k) (fun s _ => s.Rests) {} :=
  ⟨⟨rfl, rfl⟩, fun _ => rests_initial⟩

/-- What is offered stands for the first of the rows that are left. -/
theorem follows_deliver {r : Request} {s : Stage} {mode : Mode} {row : Row} {rest : List Row}
    {Q : Stage → Except Failure Bool → Prop} (hl : s.Listens r) (ha : s.ahead = row :: rest)
    (hf : ∀ f, Q (s.failed f) (.error f)) (hno : Q s (.ok false)) (hyes : Q s.passed (.ok true)) :
    (deliver mode row).Follows d r Q s := by
  have hraised : ∀ f, f.isException → Q s (.error f) := by
    intro f he
    have hf := hf f
    rwa [Stage.failed_exception he] at hf
  have hoffer : ∀ o : Offer, o.IsOf row → (Op.offer o).Follows d r Q s := by
    intro o ho
    refine ⟨⟨hl, row, rest, ha, ho⟩, ?_⟩
    rintro (f | _ | _)
    · exact hf f
    · exact hno
    · exact hyes
  cases mode with
  | reference =>
    refine follows_bind.2 (follows_ofExcept.2 ?_)
    cases hr : Wire.reference row.id row.sequence with
    | error f => exact hraised f (Wire.reference_exception hr)
    | ok id =>
      refine hoffer _ (Or.inl ?_)
      unfold Wire.reference at hr
      split at hr <;> cases hr
      rfl
  | messages =>
    refine follows_bind.2 (follows_ofExcept.2 ?_)
    cases hr : Wire.decode row.data with
    | error f => exact hraised f (Wire.decode_exception hr)
    | ok m => exact hoffer _ (Or.inr ⟨m, hr, rfl⟩)

theorem follows_offerAll {mode : Mode} {rows : List Row} {n : Nat} {s : Stage}
    (hs : s.Rests) (hm : s.mark = none) (hr : s.rows = rows) :
    (offerAll mode n rows).Follows d (.recoverAll k mode) (fun s _ => s.Rests) s := by
  induction rows generalizing n s with
  | nil => exact hs
  | cons row rows ih =>
    have ha : s.ahead = row :: rows := by simp [Stage.ahead, hm, hr]
    refine follows_bind.2 (follows_deliver
      ⟨hs.1, hs.2.2, ⟨k, by simp [Request.redelivers]⟩, by simp [ha], by simp [Request.batches]⟩
      ha ?_ ?_ ?_)
    · exact fun f => ⟨by simp [hs.1], by simp [hs.2.1], by simp [hs.2.2]⟩
    · exact hs
    · refine ih ?_ ?_ ?_ <;> simp [Stage.passed, ha, hm, Stage.Rests, hs.1, hs.2.1, hs.2.2]

theorem follows_readAll {context : String} {mode : Mode} :
    (inContext context <| inTransaction <| readAll d k context).Follows d (.recoverAll k mode)
      (fun s a => s.Rests ∧ s.mark = none ∧ ∀ rows, a = .ok rows → s.rows = rows) {} := by
  refine follows_inContext.2 (follows_inTransaction rfl ?_ ?_)
  · exact fun f => ⟨rests_initial, rfl, nofun⟩
  refine follows_bind.2 ⟨⟨rfl, ⟨rfl, rfl⟩, trivial⟩, fun scan => ?_⟩
  refine follows_bind.2 (follows_ofExcept.2 ?_)
  cases scan.outcome with
  | error f => exact ⟨rfl, ⟨rfl, rfl, rfl⟩, rfl, nofun⟩
  | ok status =>
    refine follows_bind.2 (follows_require.2 ?_)
    cases status.require _ with
    | error f => exact ⟨rfl, ⟨rfl, rfl, rfl⟩, rfl, nofun⟩
    | ok _ =>
      refine ⟨rfl, Or.inl rfl, by simp, ⟨⟨rfl, rfl, rfl⟩, rfl, ?_⟩,
        fun f => ⟨⟨rfl, rfl, rfl⟩, rfl, nofun⟩⟩
      rintro rows ⟨⟩
      rfl

theorem recoverAll_follows {mode : Mode} :
    (recoverAll d k mode).Follows d (.recoverAll k mode) (fun s _ => s.Rests) {} := by
  refine follows_observed (follows_bind.2 (follows_validate ?_))
  rintro (f | _)
  · exact rests_initial
  refine follows_bind.2 (follows_mono ?_ follows_readAll)
  rintro s (f | rows) ⟨hs, hm, hr⟩
  · exact hs
  · refine follows_bind.2 (follows_mono ?_ (follows_offerAll hs hm (hr rows rfl)))
    rintro s (f | n) hs
    · exact hs
    · exact ⟨trivial, fun _ => hs⟩

/-- A pass has its lease and is outside of transactions, and its slot is up to date. -/
structure Stage.Holds (slot : Nat) (s : Stage) : Prop where
  phase : s.phase = .closed
  lease : s.lease = some slot
  cursor : s.cursor = s.mark
  forgot : s.forgot = false

variable {slot limit : Nat} {mode : Mode}

theorem follows_startOf {cursor : Option Watermark} :
    (startOf d k ⟨slot, cursor⟩).Follows d (.recoverNext k limit mode)
      (fun s a => s.Holds slot ∧ s.rows = [] ∧ ∀ w, a = .ok w → s.mark = some w)
      { lease := some slot, cursor, mark := cursor } := by
  cases cursor with
  | some w =>
    refine ⟨⟨rfl, rfl, rfl, rfl⟩, rfl, ?_⟩
    rintro x ⟨⟩
    rfl
  | none =>
    have hload : ∀ context, (inContext context <| inTransaction <| Op.load d k).Follows d
        (.recoverNext k limit mode) (fun s a => s.phase = .closed ∧ s.lease = some slot ∧
          s.cursor = none ∧ s.forgot = false ∧ s.rows = [] ∧ match a with
            | .ok w => s.mark = some w
            | .error _ => s.mark = none) { lease := some slot } := by
      intro context
      refine follows_inContext.2 (follows_inTransaction rfl ?_ ⟨⟨rfl, ⟨rfl, rfl⟩, rfl, rfl⟩, ?_⟩)
      · exact fun f => ⟨rfl, rfl, rfl, rfl, rfl, rfl⟩
      · rintro (f | w)
        · exact ⟨rfl, rfl, rfl, rfl, rfl, rfl, rfl⟩
        · exact ⟨rfl, Or.inr ⟨rfl, rfl⟩, by simp, ⟨rfl, rfl, rfl, rfl, rfl, rfl⟩,
            fun f => ⟨rfl, rfl, rfl, rfl, rfl, rfl⟩⟩
    refine follows_bind.2 (follows_mono ?_ (hload _))
    rintro s (f | w) ⟨hp, hl, hc, hf, hr, hm⟩
    · exact ⟨⟨hp, hl, hc.trans hm.symm, hf⟩, hr, by simp⟩
    · refine ⟨⟨hp, hl, hm⟩, fun _ => ⟨⟨hp, hl, hm.symm, hf⟩, hr, ?_⟩⟩
      rintro x ⟨⟩
      exact hm

theorem follows_readRows {s : Stage} {w : Watermark} (hs : s.Holds slot) (hm : s.mark = some w)
    (hr : s.rows = []) :
    (readRows d k w limit).Follows d (.recoverNext k limit mode)
      (fun s a => s.Holds slot ∧ s.mark = some w ∧ ∃ e, a = .ok (s.rows, e)) s := by
  refine follows_bind.2 (follows_attempt.2 ⟨hs.phase, ?_⟩)
  rintro (f | _)
  · exact ⟨hs, hm, _, congrArg (fun rows => Except.ok (rows, Except.error f)) hr.symm⟩
  refine follows_bind.2 ⟨⟨rfl, ⟨rfl, rfl⟩, hm⟩, fun scan => ?_⟩
  refine follows_bind.2 (follows_attempt.2 (follows_bind.2 (follows_ofExcept.2 ?_)))
  have hclose : ∀ e : Except Failure Unit, ∀ phase, phase ≠ Phase.closed →
      (do Op.ask .close; pure (scan.rows, e) : Op (List Row × Except Failure Unit)).Follows d
        (.recoverNext k limit mode)
        (fun s a => s.Holds slot ∧ s.mark = some w ∧ ∃ e, a = .ok (s.rows, e))
        { s with phase, rows := scan.rows } := by
    intro e phase hp
    exact ⟨hp, fun _ => ⟨⟨rfl, hs.lease, hs.cursor, hs.forgot⟩, hm, e, rfl⟩⟩
  cases scan.outcome with
  | error f => exact hclose _ .active (by simp)
  | ok status =>
    refine follows_bind.2 (follows_require.2 ?_)
    cases status.require _ with
    | error f => exact hclose _ .active (by simp)
    | ok _ =>
      refine ⟨⟨rfl, Or.inl hs.cursor, by simp⟩, ?_⟩
      rintro (f | _)
      · exact ⟨by simp [Stage.Permits, Stage.next], fun _ =>
          ⟨⟨rfl, hs.lease, rfl, hs.forgot⟩, hs.cursor.trans hm, _, rfl⟩⟩
      · exact hclose _ .ended (by simp)

/-- The rows that are left are offered in order, and the position follows what is accepted, unless it
falls back. -/
theorem follows_offerRows {rows : List Row} {p : Progress} {s : Stage} (hp : s.phase = .closed)
    (hl : s.lease = some slot) (hc : s.cursor.isSome) (hf : s.forgot = false)
    (hm : s.mark = some p.mark) (hn : p.failure = none)
    (ha : s.ahead = rows.dropWhile fun r => !r.mark.isAhead p.mark) :
    (offerRows mode p rows).Follows d (.recoverNext k limit mode) (fun s a => s.phase = .closed ∧
      s.lease = some slot ∧ s.forgot = false ∧ ∃ p, a = .ok p ∧
        if p.failure.all Failure.isException then s.mark = some p.mark else s.cursor = s.mark) s := by
  induction rows generalizing p s with
  | nil => exact ⟨hp, hl, hf, p, rfl, by simpa [hn] using hm⟩
  | cons row rows ih =>
    unfold offerRows
    split
    · rename_i hrow
      exact ih hp hl hc hf hm hn (ha.trans (List.dropWhile_cons_of_pos hrow))
    · rename_i hrow
      have ha : s.ahead = row :: rows := ha.trans (List.dropWhile_cons_of_neg hrow)
      have hlisten : s.Listens (.recoverNext k limit mode) :=
        ⟨hp, hf, ⟨k, by simp [Request.redelivers]⟩, by simp [ha],
          fun _ _ => ⟨by simp [hl], hc, by simp [hm]⟩⟩
      have hfailed : ∀ f, (s.failed f).phase = .closed ∧ (s.failed f).lease = some slot ∧
          (s.failed f).forgot = false ∧
          ∃ q, (Except.ok { p with failure := some f } : Except Failure Progress) = .ok q ∧
            if q.failure.all Failure.isException then (s.failed f).mark = some q.mark
            else (s.failed f).cursor = (s.failed f).mark := by
        intro f
        refine ⟨by simpa using hp, by simpa using hl, by simpa using hf, _, rfl, ?_⟩
        cases he : f.isException with
        | true => simpa [he, Stage.failed_exception he] using hm
        | false => simp [he, Stage.failed_object he]
      have hstopped : s.phase = .closed ∧ s.lease = some slot ∧ s.forgot = false ∧
          ∃ q, (Except.ok p : Except Failure Progress) = .ok q ∧
            if q.failure.all Failure.isException then s.mark = some q.mark else s.cursor = s.mark :=
        ⟨hp, hl, hf, p, rfl, by simpa [hn] using hm⟩
      refine follows_bind.2 (follows_attempt.2 (follows_bind.2 ⟨hlisten, ?_⟩))
      rintro (f | _ | _)
      · exact hfailed f
      · exact hstopped
      · refine follows_deliver hlisten ha hfailed hstopped ?_
        have hpass : s.passed = { s with mark := some row.mark, rows := rows } := by
          simp [Stage.passed, ha, hm]
        change (offerRows mode _ rows).Follows d _ _ s.passed
        rw [hpass]
        exact ih hp hl hc hf rfl hn rfl

theorem follows_offerAndKeep {s : Stage} {span : Telemetry.Span} {w : Watermark}
    (hs : s.Holds slot) (hm : s.mark = some w) :
    (offerAndKeep d mode span slot w s.rows).Follows d (.recoverNext k limit mode)
      (fun s _ => s.Holds slot) s := by
  refine follows_bind.2 (follows_mono ?_ (follows_offerRows hs.phase hs.lease
    (by rw [hs.cursor, hm]; rfl) hs.forgot hm rfl (by simp [Stage.ahead, hm])))
  rintro s a ⟨hp, hl, hf, p, rfl, hm⟩
  refine follows_bind.2 ?_
  unfold settle
  obtain ⟨mark, delivered, failure⟩ := p
  cases failure with
  | none =>
    exact ⟨⟨hp, hl, hm⟩, fun _ => ⟨trivial, fun _ => ⟨trivial, fun _ => ⟨hp, hl, hm.symm, hf⟩⟩⟩⟩
  | some f =>
    split at hm
    · rename_i he
      rw [if_pos he]
      exact ⟨⟨hp, hl, hm⟩, fun _ => ⟨trivial, fun _ => ⟨hp, hl, hm.symm, hf⟩⟩⟩
    · rename_i he
      rw [if_neg he]
      exact ⟨hp, hl, hm, hf⟩

theorem follows_pass {span : Telemetry.Span} {cursor : Option Watermark} :
    (pass d k limit mode span ⟨slot, cursor⟩).Follows d (.recoverNext k limit mode)
      (fun s _ => s.Holds slot) { lease := some slot, cursor, mark := cursor } := by
  refine follows_bind.2 (follows_mono ?_ follows_startOf)
  rintro s (f | w) ⟨hs, hr, hm⟩
  · exact hs
  have hm := hm w rfl
  refine follows_bind.2 ⟨trivial, fun _ => ?_⟩
  refine follows_bind.2 (follows_mono ?_ (follows_readRows hs hm hr))
  rintro s a ⟨hs, hm, e, rfl⟩
  cases e with
  | error f =>
    exact ⟨trivial, fun _ => ⟨trivial, fun _ => ⟨trivial, fun _ => follows_offerAndKeep hs hm⟩⟩⟩
  | ok _ => exact follows_offerAndKeep hs hm

theorem recoverNext_follows :
    (recoverNext d k limit mode).Follows d (.recoverNext k limit mode) (fun s _ => s.Rests) {} := by
  refine follows_bind.2 (follows_validate ?_)
  rintro (f | _)
  · exact rests_initial
  refine follows_bind.2 ⟨trivial, fun span => ?_⟩
  refine follows_bind.2 ⟨⟨rfl, rfl, rfl, by simp [Request.batches]⟩, fun lease => ?_⟩
  refine follows_bind.2 (follows_attempt.2 (follows_mono ?_ follows_pass))
  rintro s a hs
  refine follows_bind.2 ⟨⟨hs.phase, hs.lease, hs.cursor⟩, fun _ => ?_⟩
  refine follows_bind.2 ⟨trivial, fun _ => follows_ofExcept.2 ?_⟩
  exact ⟨hs.phase, rfl, hs.forgot⟩

/-- Every call keeps to the order, and at its end nothing is open, held or due. -/
theorem operation_follows (r : Request) :
    (r.operation d).Follows d r (fun s _ => s.Rests) {} := by
  cases r with
  | publish => exact publish_follows
  | acknowledge => exact acknowledge_follows
  | recoverNext => exact recoverNext_follows
  | recoverAll => exact recoverAll_follows
  | resetBatching => exact resetBatching_follows
  | subscribe => exact subscribe_follows
  | lookup => exact lookup_follows
  | subscriptions => exact subscriptions_follows
  | unsubscribe => exact unsubscribe_follows
  | messageCount => exact messageCount_follows
  | cachedWatermark => exact cachedWatermark_follows

end
end DurableTopic.Store

import DurableTopic.Proofs.Isolation
import DurableTopic.Proofs.Publishing
import DurableTopic.Proofs.Service
import DurableTopic.Proofs.Wire
/-! Three views of what a subscriber has not acknowledged: passes of any sizes until one finds
nothing, one recovery of everything, and the number of messages. They agree. -/
namespace DurableTopic

namespace Repository

/-- A limit that is not zero lets rows through from the first on, if there are any. -/
theorem first_prefix {r : Repository} {limit : Nat} {rows : List Row} (hp : 0 < limit)
    (hl : limit < UInt64.size) :
    r.first limit rows <+: rows ∧ (r.first limit rows = [] → rows = []) := by
  cases r with
  | memory =>
    refine ⟨List.take_prefix _ _, fun h => ?_⟩
    rcases List.take_eq_nil_iff.1 h with h | h
    · omega
    · exact h
  | embedded =>
    simp only [first, Embedded.first, if_neg (Nat.ne_of_gt hp), Embedded.limited]
    by_cases hs : limit < 0x8000000000000000
    · rw [limitWord_of_lt hs, if_neg (by omega), Int.toNat_natCast]
      refine ⟨List.take_prefix _ _, fun h => ?_⟩
      rcases List.take_eq_nil_iff.1 h with h | h
      · omega
      · exact h
    · rw [if_pos (limitWord_neg (by omega) hl)]
      exact ⟨List.prefix_refl _, id⟩

namespace Ledger

variable {l : Ledger} {w : Watermark} {r : Row} {rows seen : List Row} {k : SubscriberKey}

/-- The messages above the persisted position of a subscriber; none of one who is not registered. -/
def undelivered (l : Ledger) (k : SubscriberKey) : List Row :=
  (l.record k).elim [] fun s => l.above s.acked

/-- The persisted position of a subscriber. -/
def acked (l : Ledger) (k : SubscriberKey) : Watermark := (l.record k).elim .start (·.acked)

/-- What a scan above a position finds for a subscriber. -/
def unread (l : Ledger) (k : SubscriberKey) (w : Watermark) : List Row :=
  (l.record k).elim [] fun _ => l.above w

theorem unread_acked : l.unread k (l.acked k) = l.undelivered k := by
  unfold unread acked undelivered
  cases l.record k <;> rfl

theorem above_of_unread (hp : rows <+: l.unread k w) : rows <+: l.above w := by
  unfold unread at hp
  cases hk : l.record k with
  | none =>
    simp only [hk, Option.elim_none, List.prefix_nil] at hp
    exact hp ▸ List.nil_prefix
  | some s => simpa [hk] using hp

/-- Behind what is taken from the front of a scan the next one goes on. -/
theorem unread_reach {rest : List Row} (h : l.Sound) (hs : seen ++ rest = l.unread k w)
    (hne : seen ≠ []) : l.unread k (reach w seen) = rest := by
  have hd := delivered_of_prefix h (above_of_unread ⟨rest, hs⟩)
  cases hk : l.record k with
  | none =>
    simp only [unread, hk, Option.elim_none, List.append_eq_nil_iff] at hs
    exact absurd hs.1 hne
  | some s =>
    simp only [unread, hk, Option.elim_some] at hs ⊢
    exact List.append_cancel_left (hd.trans hs.symm)

end Ledger
end Repository
namespace Store

open Cursor (Thread)
open Repository (Ledger)

/-- What a row is offered as, if it can be read. -/
def offerOf (mode : Mode) (r : Row) : Except Failure Offer :=
  match mode with
  | .reference => (Wire.reference r.id r.sequence).map .reference
  | .messages => (Wire.decode r.data).map fun m => .message (m.stamped r.sequence)

/-- What is offered of some rows to a listener that takes everything, and the failure that ends it,
if one does. -/
def handed (mode : Mode) : List Row → List Offer × Option Failure
  | [] => ([], none)
  | r :: rows =>
    match offerOf mode r with
    | .error f => ([], some f)
    | .ok o => (o :: (handed mode rows).1, (handed mode rows).2)

/-- Where a pass leaves the cursor: behind the last of the rows that it offers. -/
def leftAt (mode : Mode) (w : Watermark) (rows : List Row) : Watermark :=
  Ledger.reach w (rows.take (handed mode rows).1.length)

/-- How a recovery ends that makes some offers: with their number, or with a failure. -/
def ended (x : List Offer × Option Failure) : Except Failure Nat :=
  x.2.elim (.ok x.1.length) .error

section

variable {mode : Mode} {r : Row} {rows rows' : List Row} {o : Offer} {f : Failure}

theorem offerOf_exception (h : offerOf mode r = .error f) : f.isException := by
  cases mode with
  | reference =>
    cases hd : Wire.reference r.id r.sequence with
    | ok _ => simp [offerOf, hd, Except.map] at h
    | error g =>
      obtain rfl : g = f := by simpa [offerOf, hd, Except.map] using h
      exact Wire.reference_exception hd
  | messages =>
    cases hd : Wire.decode r.data with
    | ok _ => simp [offerOf, hd, Except.map] at h
    | error g =>
      obtain rfl : g = f := by simpa [offerOf, hd, Except.map] using h
      exact Wire.decode_exception hd

theorem handed_ok (h : offerOf mode r = .ok o) :
    handed mode (r :: rows) = (o :: (handed mode rows).1, (handed mode rows).2) := by
  rw [handed, h]

theorem handed_error (h : offerOf mode r = .error f) : handed mode (r :: rows) = ([], some f) := by
  rw [handed, h]

theorem leftAt_ok {w : Watermark} (h : offerOf mode r = .ok o) :
    leftAt mode w (r :: rows) = leftAt mode r.mark rows := by
  rw [leftAt, handed_ok h, List.length_cons, List.take_succ_cons, Ledger.reach_cons, ← leftAt]

theorem leftAt_error {w : Watermark} (h : offerOf mode r = .error f) :
    leftAt mode w (r :: rows) = w := by
  rw [leftAt, handed_error h]
  rfl

/-- What comes behind is offered if nothing fails before. -/
theorem handed_append (h : (handed mode rows).2 = none) : handed mode (rows ++ rows') =
    ((handed mode rows).1 ++ (handed mode rows').1, (handed mode rows').2) := by
  induction rows with
  | nil => rfl
  | cons r rows ih =>
    cases ho : offerOf mode r with
    | error f => simp [handed_error ho] at h
    | ok o =>
      rw [handed_ok ho] at h ⊢
      rw [List.cons_append, handed_ok ho, ih h]
      rfl

theorem handed_stopped (h : (handed mode rows).2 = some f) :
    handed mode (rows ++ rows') = handed mode rows := by
  induction rows with
  | nil => cases h
  | cons r rows ih =>
    cases ho : offerOf mode r with
    | error f => rw [List.cons_append, handed_error ho, handed_error ho]
    | ok o =>
      rw [handed_ok ho] at h
      rw [List.cons_append, handed_ok ho, handed_ok ho, ih h]

/-- Every row is offered if nothing fails. -/
theorem offers_handed (h : (handed mode rows).2 = none) :
    rows.map (offerOf mode) = (handed mode rows).1.map .ok := by
  induction rows with
  | nil => rfl
  | cons r rows ih =>
    cases ho : offerOf mode r with
    | error f => simp [handed_error ho] at h
    | ok o =>
      rw [handed_ok ho] at h ⊢
      rw [List.map_cons, List.map_cons, ho, ih h]

theorem length_handed (h : (handed mode rows).2 = none) :
    (handed mode rows).1.length = rows.length := by
  simpa using (congrArg List.length (offers_handed h)).symm

/-- A failure is that of a row. -/
theorem handed_failure (h : (handed mode rows).2 = some f) :
    ∃ r ∈ rows, offerOf mode r = .error f := by
  induction rows with
  | nil => cases h
  | cons r rows ih =>
    cases ho : offerOf mode r with
    | error g =>
      rw [handed_error ho] at h
      cases h
      exact ⟨r, List.mem_cons_self, ho⟩
    | ok o =>
      rw [handed_ok ho] at h
      obtain ⟨x, hx, hf⟩ := ih h
      exact ⟨x, List.mem_cons_of_mem _ hx, hf⟩

/-- What cannot be offered fails by an exception. -/
theorem handed_exception : (handed mode rows).2.all Failure.isException := by
  cases hf : (handed mode rows).2 with
  | none => rfl
  | some f =>
    obtain ⟨r, -, ho⟩ := handed_failure hf
    exact offerOf_exception ho

end

/-- The rows of a pass that starts at some position. -/
def Scene.batch (W : Scene) (k : SubscriberKey) (n : Nat) (w : Watermark) : List Row :=
  W.keeping.first n (W.base.unread k w)

namespace Op

variable {W : Scene} {A : Point} {mode : Mode} {r : Row} {rows : List Row} {k : SubscriberKey}
  {d : String} {P : Cursor.Cache → Prop}

theorem deliver_eq : deliver mode r = (do offer (← ofExcept (offerOf mode r))) := by
  cases mode with
  | reference => unfold deliver offerOf; cases Wire.reference r.id r.sequence <;> rfl
  | messages => unfold deliver offerOf; cases Wire.decode r.data <;> rfl

theorem gives_deliver {o : Offer} (h : offerOf mode r = .ok o) :
    (deliver mode r).Gives W A (.ok true) [o] A := by
  rw [deliver_eq, h]
  exact gives_then gives_ofExcept Operation.gives_offer

theorem gives_deliver_error {f : Failure} (h : offerOf mode r = .error f) :
    (deliver mode r).Gives W A (.error f) [] A := by
  rw [deliver_eq, h]
  exact gives_bind_error gives_ofExcept

theorem gives_offerAll (mode : Mode) (rows : List Row) (n : Nat) :
    (offerAll mode n rows).Gives W A
      ((handed mode rows).2.elim (.ok (n + (handed mode rows).1.length)) .error)
      (handed mode rows).1 A := by
  induction rows generalizing n with
  | nil => exact gives_pure
  | cons r rows ih =>
    cases ho : offerOf mode r with
    | error f =>
      rw [handed_error ho]
      exact gives_bind_error (gives_deliver_error ho)
    | ok o =>
      have hn : n + (o :: (handed mode rows).1).length = n + 1 + (handed mode rows).1.length := by
        simp only [List.length_cons]
        omega
      rw [handed_ok ho, hn]
      exact gives_bind (gives_deliver ho) (ih (n + 1))

theorem gives_readAll {context : String} (hd : d = W.keeping.destination) :
    (readAll d k context).Gives W ⟨.active, P⟩ (.ok (W.base.undelivered k)) [] ⟨.active, P⟩ := by
  refine gives_then (gives_lift (gives_call (.scanAll d k)
    (a := ({ rows := W.base.undelivered k } : Repository.Scan)) hd trivial fun _ _ h => h)) ?_
  exact gives_then gives_ofExcept (gives_then gives_ofExcept gives_pure)

/-- A recovery of everything offers what is not acknowledged. -/
theorem gives_recoverAll (mode : Mode) (hd : d = W.keeping.destination) (hk : k.client ≠ "") :
    (recoverAll d k mode).Gives W ⟨.closed, P⟩ (ended (handed mode (W.base.undelivered k)))
      (handed mode (W.base.undelivered k)).1 ⟨.closed, P⟩ := by
  refine gives_observed (gives_then (gives_validate hk) (gives_then
    (gives_inContext (gives_inTransaction (gives_readAll hd))) ?_))
  have hall := gives_offerAll (W := W) (A := ⟨.closed, P⟩) mode (W.base.undelivered k) 0
  unfold ended
  cases hf : (handed mode (W.base.undelivered k)).2 with
  | some f =>
    rw [hf] at hall
    exact gives_bind_error hall
  | none =>
    rw [hf, Nat.zero_add] at hall
    exact gives_rest hall (gives_told rfl fun _ => by simpa using gives_pure)

theorem gives_messageCount (hd : d = W.keeping.destination) (hk : k.client ≠ "") :
    (messageCount d k).Gives W ⟨.closed, P⟩ (.ok ((W.base.undelivered k).length : Int)) []
      ⟨.closed, P⟩ :=
  gives_observed <| gives_then (gives_validate hk) <| gives_then
    (gives_inContext <| gives_inTransaction <| gives_call (.count d k)
      (a := .ok ((W.base.undelivered k).length : Int)) hd trivial fun _ _ h => h) <|
    gives_told rfl fun _ => gives_pure

variable {i n : Nat} {o : Option Watermark} {w : Watermark}

/-- A pass starts at the cursor, or at the persisted position, which it keeps. -/
theorem gives_startOf (hd : d = W.keeping.destination) :
    (startOf d k ⟨i, o⟩).Gives W ⟨.closed, (·.Leased W.thread k i o)⟩
      (.ok (o.getD (W.base.acked k))) []
      ⟨.closed, (·.Leased W.thread k i (some (o.getD (W.base.acked k))))⟩ := by
  cases o with
  | some w => exact gives_pure
  | none =>
    exact gives_then (gives_inContext <| gives_inTransaction <| gives_call (.load d k)
      (a := .ok (W.base.acked k)) hd trivial fun _ _ h => h) (gives_then gives_keep gives_pure)

theorem gives_readRows (hd : d = W.keeping.destination) : (readRows d k w n).Gives W ⟨.closed, P⟩
    (.ok (W.keeping.first n (W.base.unread k w), .ok ())) [] ⟨.closed, P⟩ :=
  gives_then (gives_attempt gives_begin) <|
    gives_then (gives_lift (gives_call (.scanAfter d k w n)
      (a := ({ rows := W.keeping.first n (W.base.unread k w) } : Repository.Scan)) hd trivial
      fun _ _ h => h)) <|
    gives_then (gives_attempt <| gives_then gives_ofExcept <|
      gives_then gives_ofExcept gives_commit) <|
    gives_then gives_close gives_pure

/-- Of rows above the position all are offered, up to one that fails. -/
theorem gives_offerRows (hl : W.base.Sound) (hp : rows <+: W.base.above w) :
    (offerRows mode ⟨w, n, none⟩ rows).Gives W A
      (.ok ⟨leftAt mode w rows, n + (handed mode rows).1.length, (handed mode rows).2⟩)
      (handed mode rows).1 A := by
  induction rows generalizing w n with
  | nil => exact gives_pure
  | cons r rows ih =>
    have hahead : r.mark.isAhead w = true :=
      (List.mem_filter.1 (hp.subset List.mem_cons_self)).2
    have hask : ∀ b os, (deliver mode r).Gives W A b os A →
        (do if ← hasCapacity then deliver mode r else pure false : Op Bool).Gives W A b os A :=
      fun b os h => gives_then Operation.gives_hasCapacity h
    rw [offerRows, if_neg (by simp [hahead])]
    cases ho : offerOf mode r with
    | error f =>
      rw [handed_error ho, leftAt_error ho]
      exact gives_then (gives_attempt (hask _ _ (gives_deliver_error ho))) gives_pure
    | ok o =>
      have hn : n + (o :: (handed mode rows).1).length = n + 1 + (handed mode rows).1.length := by
        simp only [List.length_cons]
        omega
      rw [handed_ok ho, leftAt_ok ho, hn]
      exact gives_bind (gives_attempt (hask _ _ (gives_deliver ho))) (ih (Ledger.above_cons hl hp))

theorem gives_settle {p : Progress} (h : p.failure.all Failure.isException) :
    (settle d i p).Gives W ⟨.closed, (·.Leased W.thread k i o)⟩ (.ok ()) []
      ⟨.closed, (·.Leased W.thread k i (some p.mark))⟩ := by
  rw [settle, if_pos h]
  exact gives_then gives_keep (gives_told rfl fun _ => gives_pure)

theorem gives_offerAndKeep {span : Telemetry.Span} (hl : W.base.Sound)
    (hp : rows <+: W.base.above w) :
    (offerAndKeep d mode span i w rows).Gives W ⟨.closed, (·.Leased W.thread k i o)⟩
      (ended (handed mode rows)) (handed mode rows).1
      ⟨.closed, (·.Leased W.thread k i (some (leftAt mode w rows)))⟩ := by
  refine gives_rest (gives_offerRows hl hp) (gives_then (gives_settle handed_exception) ?_)
  unfold ended
  cases (handed mode rows).2 with
  | some f => exact gives_throw
  | none => exact gives_told rfl fun _ => by simpa using gives_pure

theorem gives_pass {span : Telemetry.Span} (hd : d = W.keeping.destination) (hl : W.base.Sound)
    (hw : w = o.getD (W.base.acked k)) (hp : W.batch k n w <+: W.base.above w) :
    (pass d k n mode span ⟨i, o⟩).Gives W ⟨.closed, (·.Leased W.thread k i o)⟩
      (ended (handed mode (W.batch k n w))) (handed mode (W.batch k n w)).1
      ⟨.closed, (·.Leased W.thread k i (some (leftAt mode w (W.batch k n w))))⟩ := by
  subst hw
  exact gives_then (gives_startOf hd) <| gives_told rfl fun _ =>
    gives_then (gives_readRows hd) (gives_offerAndKeep hl hp)

/-- A pass offers the next messages, and leaves the cursor behind the last of them. -/
theorem gives_recoverNext (mode : Mode) (hd : d = W.keeping.destination) (hl : W.base.Sound)
    (hk : k.client ≠ "") (hw : w = o.getD (W.base.acked k)) (hp : W.batch k n w <+: W.base.above w) :
    (recoverNext d k n mode).Gives W ⟨.closed, (·.Stands k o)⟩
      (ended (handed mode (W.batch k n w))) (handed mode (W.batch k n w)).1
      ⟨.closed, (·.Stands k (some (leftAt mode w (W.batch k n w))))⟩ := by
  refine gives_then (gives_validate hk) (gives_told rfl fun span => gives_acquire fun i => ?_)
  exact gives_rest (gives_attempt (gives_pass hd hl hw hp)) <| gives_then gives_release <|
    gives_told rfl fun _ => gives_ofExcept

end Op

/-- A call of a thread gives a result, and offers the same to every listener that is willing. -/
def Served (t : Thread) (r : Request) (h : Host) (a : Except Failure r.Result) (os : List Offer)
    (h' : Host) : Prop :=
  ∀ (σ : Type) (l : Listener (StateT σ Session)) (seen : σ → List Offer), l.Willing seen → ∀ j,
    ∃ j', (r.operation h.destination).serve l t j h = some ((a, j'), h') ∧ seen j' = seen j ++ os

/-- Passes of given sizes, one after the other until one finds nothing or fails, make some offers. -/
inductive Drained (t : Thread) (k : SubscriberKey) (mode : Mode) :
    (Nat → Nat) → Host → List Offer → Option Failure → Prop where
  | last {sizes : Nat → Nat} {h h' : Host} {os : List Offer}
      (hs : Served t (.recoverNext k (sizes 0) mode) h (.ok (0 : Nat)) os h') :
      Drained t k mode sizes h os none
  | fails {sizes : Nat → Nat} {h h' : Host} {os : List Offer} {f : Failure}
      (hs : Served t (.recoverNext k (sizes 0) mode) h (.error f) os h') :
      Drained t k mode sizes h os (some f)
  | more {sizes : Nat → Nat} {h h' : Host} {os os' : List Offer} {n : Nat} {f : Option Failure}
      (hn : n ≠ 0) (hs : Served t (.recoverNext k (sizes 0) mode) h (.ok (n : Nat)) os h')
      (hd : Drained t k mode (fun i => sizes (i + 1)) h' os' f) :
      Drained t k mode sizes h (os ++ os') f

section

variable {W : Scene} {h : Host} {k : SubscriberKey} {mode : Mode}

/-- Passes that go on from a position offer what is above it. Each that offers something moves on. -/
theorem drained_from {o : Option Watermark} {w : Watermark} {rows : List Row} {sizes : Nat → Nat}
    (hfirst : ∀ n rows, 0 < n → n < UInt64.size → W.keeping.first n rows <+: rows ∧
      (W.keeping.first n rows = [] → rows = []))
    (hl : W.base.Sound) (hk : k.client ≠ "") (hs : ∀ i, 0 < sizes i ∧ sizes i < UInt64.size)
    (hA : W.At ⟨.closed, (·.Stands k o)⟩ h) (hw : w = o.getD (W.base.acked k))
    (hr : W.base.unread k w = rows) :
    Drained W.thread k mode sizes h (handed mode rows).1 (handed mode rows).2 := by
  induction hn : rows.length using Nat.strongRecOn generalizing o w rows sizes h with
  -- on the number of rows above the position, which every pass that offers something lowers
  | ind m ih =>
    obtain ⟨⟨rest, hrest⟩, hnil⟩ := hfirst (sizes 0) rows (hs 0).1 (hs 0).2
    have hb : W.batch k (sizes 0) w ++ rest = rows := by rw [Scene.batch, hr, hrest]
    obtain ⟨h', hserved, hA'⟩ := Op.gives_recoverNext mode hA.1.destination hl hk hw
      (Ledger.above_of_unread ⟨rest, hb.trans hr.symm⟩) h hA
    generalize hseen : W.batch k (sizes 0) w = seen at hb hserved hA'
    cases hf : (handed mode seen).2 with
    | some f =>
      rw [ended, hf] at hserved
      rw [← hb, handed_stopped hf, hf]
      exact .fails hserved
    | none =>
      have hlen := length_handed hf
      rw [ended, hf, Option.elim_none, hlen] at hserved
      by_cases hne : seen = []
      · obtain rfl : rows = [] := hnil (by rw [← hr]; exact hseen.trans hne)
        rw [hne] at hserved
        exact .last hserved
      · rw [leftAt, hlen, List.take_length] at hA'
        have hnext := Ledger.unread_reach hl (hb.trans hr.symm) hne
        have hpos : 0 < seen.length := List.length_pos_iff.2 hne
        rw [← hb, handed_append hf]
        refine .more (Nat.ne_of_gt hpos) hserved
          (ih rest.length ?_ (fun i => hs (i + 1)) hA' rfl hnext rfl)
        rw [← hn, ← hb, List.length_append]
        omega

/-- A published message is offered, unless it is larger than any machine, or its id is kept as
nothing where only the id is offered. -/
theorem offerOf_published {spell : String → String} {d : String} {m : Message} {n : Int} {r : Row}
    {f : Failure} (hid : m.identity.value ≠ "") (hr : r = Ledger.stored spell (rowOf d m) n)
    (hf : offerOf mode r = .error f) : mode = .messages ∧ Wire.wordSize ≤ r.data.length ∨
      mode = .reference ∧ r.id = "" ∧ ∃ i, i ≠ "" ∧ spell i = "" := by
  subst hr
  cases mode with
  | messages =>
    refine Or.inl ⟨rfl, Nat.le_of_not_lt fun hlt => ?_⟩
    have hdecode := Wire.decode_encode (m := m) hlt
    simp [offerOf, Ledger.stored, rowOf, hdecode, Except.map] at hf
  | reference =>
    refine Or.inr ⟨rfl, ?_⟩
    by_cases hi : spell m.identity.value = ""
    · exact ⟨hi, _, hid, hi⟩
    · simp [offerOf, Ledger.stored, rowOf, Wire.reference, hi, Except.map] at hf

end

/-- One recovery of everything, passes of any sizes from a cold cursor, and the number of messages
tell the same of a subscriber, in every state that a store can come to: the messages above its
persisted position. A recovery fails only without a client, or at a message that cannot be offered. -/
theorem undelivered_views_agree {s₀ s : System} {tr : List Event} (h₀ : s₀.Opened)
    (ht : s₀.host.backend.repository.Tidy s₀.host.destination)
    (hp : s₀.host.ledger.Published s₀.host.spell s₀.host.destination) (h : Run Step s₀ tr s)
    (hn : s.host.backend.repository.hasTransaction = false) (t : Thread) (k : SubscriberKey)
    (hcold : s.host.cursors.Shows k none) (mode : Mode) (sizes : Nat → Nat)
    (hsizes : ∀ i, 0 < sizes i ∧ sizes i < UInt64.size) :
    ∃ offers failure,
      (∃ h', Served t (.recoverAll k mode) s.host.healed
        (failure.elim (.ok offers.length) .error : Except Failure Nat) offers h') ∧
      Drained t k mode sizes s.host.healed offers failure ∧
      (failure = none → (∃ h', Served t (.messageCount k) s.host.healed
          (.ok (offers.length : Int)) [] h') ∧
        (s.host.ledger.undelivered k).map (offerOf mode) = offers.map .ok) ∧
      (s.host.ledger.record k = none → k.client ≠ "" → offers = [] ∧ failure = none) ∧
      (failure ≠ none → k.client = "" ∨ ∃ r ∈ s.host.ledger.undelivered k,
        mode = .messages ∧ Wire.wordSize ≤ r.data.length ∨
        mode = .reference ∧ r.id = "" ∧ ∃ i, i ≠ "" ∧ s.host.spell i = "") := by
  have hs₀ := sound_opened h₀
  have hs := sound_run hs₀ h
  have hrec := recorded_run hs₀ (recorded_opened h₀ ht) h
  have htrue := truthful_run hs₀ (recorded_opened h₀ ht) (truthful_opened h₀ hp) h
  have hl : s.host.ledger.Sound := Repository.committed_sound hs.backend.repository
  let W : Scene := ⟨⟨s.host.destination, s.host.spell, s.host.backend.repository.first⟩,
    s.host.ledger, t⟩
  have hA : W.At ⟨.closed, (·.Stands k none)⟩ s.host.healed :=
    ⟨calm_healed hs hrec hn, Cursor.Cache.stands_of_shows hs.cursors hcold⟩
  by_cases hk : k.client = ""
  · obtain ⟨h₁, hall, -⟩ := Op.gives_observed (Op.gives_refused hk) _ hA
    obtain ⟨h₂, hnext, -⟩ := Op.gives_refused hk _ hA
    exact ⟨[], some _, ⟨h₁, hall⟩, .fails hnext, (nomatch ·), fun _ hne => absurd hk hne,
      fun _ => Or.inl hk⟩
  · refine ⟨(handed mode (s.host.ledger.undelivered k)).1,
      (handed mode (s.host.ledger.undelivered k)).2, ?_, ?_, fun hf => ?_, fun hnone _ => ?_,
      fun hf => Or.inr ?_⟩
    · obtain ⟨h', hall, -⟩ := Op.gives_recoverAll mode rfl hk _ hA
      exact ⟨h', hall⟩
    · exact drained_from (W := W) (fun n rows => Repository.first_prefix) hl hk hsizes hA rfl
        Ledger.unread_acked
    · obtain ⟨h', hcount, -⟩ := Op.gives_messageCount rfl hk _ hA
      rw [length_handed hf]
      exact ⟨⟨h', hcount⟩, offers_handed hf⟩
    · simp [Ledger.undelivered, hnone, handed]
    · obtain ⟨f, hf⟩ := Option.ne_none_iff_exists'.1 hf
      obtain ⟨r, hr, hfr⟩ := handed_failure hf
      have hrow : r ∈ s.host.ledger.rows := by
        rw [← Ledger.unread_acked] at hr
        exact (Ledger.mem_above.1 ((Ledger.above_of_unread (List.prefix_refl _)).subset hr)).1
      obtain ⟨m, hid, hstored⟩ := htrue.ledger r hrow
      exact ⟨r, hr, offerOf_published hid hstored hfr⟩

/-- Two messages wait for a subscriber that registers for all of them. -/
def twoWaiting : List Choice := System.twoNotes ++
  [.call "main" (.subscribe { destination := "orders", key := replayed } true)]

theorem two_waiting_views_agree :
    let s := ((System.fresh "orders").play twoWaiting).2
    let two := [Offer.reference ⟨"m1", 1⟩, .reference ⟨"m2", 2⟩]
    (∃ h', Served "main" (.recoverAll replayed .reference) s.host.healed (.ok (2 : Nat)) two h') ∧
      Drained "main" replayed .reference (fun _ => 1) s.host.healed two none ∧
      ∃ h', Served "main" (.messageCount replayed) s.host.healed (.ok (2 : Int)) [] h' := by
  intro s two
  have hr : Run Step (System.fresh "orders") _ s := System.play_run twoWaiting
  have hm : s.host.cursors.mapped.find? replayed = none := by decide +kernel
  have hcold : s.host.cursors.Shows replayed none := by
    have hs := Cursor.Cache.shows_of_free (k := replayed) (c := s.host.cursors)
      fun i hi => by simp [hm] at hi
    simpa [hm] using hs
  have hn : s.host.backend.repository.hasTransaction = false := by decide +kernel
  have hp : (System.fresh "orders").host.ledger.Published id "orders" := by
    intro r hr
    cases hr
  obtain ⟨offers, failure, ⟨h', hall⟩, hpasses, hcount, -, -⟩ :=
    undelivered_views_agree (System.opened_fresh "orders") Repository.tidy_inMemory hp hr hn "main"
      replayed hcold .reference (fun _ => 1) fun _ => by decide
  have hseen : ((recoverAll s.host.healed.destination replayed .reference).serve
      ({} : Script Unit).listener "main" {} s.host.healed).map
      (fun x => (x.1.1.toOption, x.1.2.offers.map (·.offer))) = some (some 2, two) := by
    decide +kernel
  obtain ⟨j, hrun, hj⟩ := hall _ _ _ willing_script {}
  obtain ⟨hnum, htwo⟩ := Prod.mk.inj (Option.some.inj ((congrArg _ hrun).symm.trans hseen))
  obtain rfl : offers = two := hj.symm.trans htwo
  cases failure with
  | some f => cases hnum
  | none => exact ⟨⟨h', hall⟩, hpasses, (hcount rfl).1⟩

end Store
end DurableTopic

import DurableTopic.Proofs.Transactions
import Mathlib.Data.List.Infix
/-! The parts of a topic in memory fit together, in what is committed and in every working copy. So a
scan that halves shows a visitor what one from the front would show it. -/
namespace DurableTopic.Repository

namespace Visitor

/-- A visitor that was shown some rows. -/
def after (v : Visitor) (rows : List Row) : Visitor := rows.foldl next v

/-- A visitor is shown the first of some rows: no more than so many, and none behind one that it
refuses. It is shown no fewer than that. -/
structure Sees (v : Visitor) (limit : Nat) (rows shown : List Row) : Prop where
  front : shown <+: rows
  within : shown.length ≤ limit
  last : ∀ before r behind, shown = before ++ r :: behind →
    (v.after before).accepts r = false → behind = []
  whole : shown = rows ∨ shown.length = limit ∨
    ∃ before r, shown = before ++ [r] ∧ (v.after before).accepts r = false

variable {v : Visitor} {n limit : Nat} {r : Row} {rows shown shown' : List Row}

@[simp] theorem shown_zero : v.shown 0 rows = [] := rfl

@[simp] theorem shown_nil : v.shown n [] = [] := by
  cases n <;> rfl

theorem shown_cons : v.shown (n + 1) (r :: rows) =
    r :: if v.accepts r then (v.next r).shown n rows else [] := rfl

theorem sees_nothing (h : limit = 0 ∨ rows = []) : v.Sees limit rows [] where
  front := List.nil_prefix
  within := Nat.zero_le _
  last before r behind h := by simp at h
  whole := by
    rcases h with rfl | rfl
    · exact Or.inr (Or.inl rfl)
    · exact Or.inl rfl

/-- A visitor that refuses the first row is shown no other. -/
theorem sees_refused (h : v.accepts r = false) : v.Sees (n + 1) (r :: rows) [r] where
  front := by simp
  within := by simp
  last before x behind heq _ := by
    have hlen : 1 = before.length + (behind.length + 1) := by
      simpa using congrArg List.length heq
    exact List.length_eq_zero_iff.1 (by omega)
  whole := Or.inr (Or.inr ⟨[], r, rfl, h⟩)

/-- A visitor that accepts the first row is shown of the others what it sees then. -/
theorem sees_accepted (h : v.accepts r) (hs : (v.next r).Sees n rows shown) :
    v.Sees (n + 1) (r :: rows) (r :: shown) where
  front := List.cons_prefix_cons.2 ⟨rfl, hs.front⟩
  within := Nat.succ_le_succ hs.within
  last before x behind heq hx := by
    cases before with
    | nil =>
      obtain ⟨rfl, rfl⟩ : r = x ∧ shown = behind := by simpa using heq
      simp [after, h] at hx
    | cons y before =>
      obtain ⟨rfl, hrest⟩ : r = y ∧ shown = before ++ x :: behind := by simpa using heq
      exact hs.last before x behind hrest hx
  whole := by
    rcases hs.whole with hall | hfull | ⟨before, x, heq, hx⟩
    · exact Or.inl (congrArg (r :: ·) hall)
    · exact Or.inr (Or.inl (congrArg (· + 1) hfull))
    · exact Or.inr (Or.inr ⟨r :: before, x, congrArg (r :: ·) heq, hx⟩)

/-- The loop over the rows stops where it should. -/
theorem sees_shown : v.Sees limit rows (v.shown limit rows) := by
  induction limit generalizing v rows with
  | zero => exact sees_nothing (Or.inl rfl)
  | succ n ih =>
    cases rows with
    | nil => exact sees_nothing (Or.inr rfl)
    | cons r rows =>
      rw [shown_cons]
      cases hr : v.accepts r with
      | false => exact sees_refused hr
      | true => exact sees_accepted hr ih

/-- Of two beginnings of some rows that a visitor might be shown, the longer one goes on where it
must not. -/
theorem prefix_of_sees (h : v.Sees limit rows shown) (h' : v.Sees limit rows shown')
    (hp : shown <+: shown') : shown = shown' := by
  obtain ⟨more, rfl⟩ := hp
  suffices more = [] by simp [this]
  rcases h.whole with rfl | hfull | ⟨before, r, rfl, hr⟩
  · have := h'.front.length_le
    rw [List.length_append] at this
    exact List.length_eq_zero_iff.1 (by omega)
  · have := h'.within
    rw [List.length_append] at this
    exact List.length_eq_zero_iff.1 (by omega)
  · exact h'.last before r more (by simp) hr

theorem sees_unique (h : v.Sees limit rows shown) (h' : v.Sees limit rows shown') :
    shown = shown' := by
  rcases List.prefix_or_prefix_of_prefix h.front h'.front with hp | hp
  · exact prefix_of_sees h h' hp
  · exact (prefix_of_sees h' h hp).symm

theorem shown_eq_iff : v.shown limit rows = shown ↔ v.Sees limit rows shown :=
  ⟨fun h => h ▸ sees_shown, sees_unique sees_shown⟩

/-- It does not matter whether the rows are cut at the limit before they are shown. -/
theorem shown_take : v.shown limit (rows.take limit) = v.shown limit rows := by
  induction limit generalizing v rows with
  | zero => rfl
  | succ n ih =>
    cases rows with
    | nil => rfl
    | cons r rows => rw [List.take_succ_cons, shown_cons, shown_cons, ih]

end Visitor

namespace Scan

theorem shown_stopping {stop seen n : Nat} {rows : List Row} :
    (Visitor.stopping stop seen).shown n rows = (rows.take n).take (max (stop - seen) 1) := by
  induction n generalizing seen rows with
  | zero => simp
  | succ n ih =>
    cases rows with
    | nil => simp
    | cons r rows =>
      have haccepts : (Visitor.stopping stop seen).accepts r = decide (seen + 1 < stop) := rfl
      have hnext : (Visitor.stopping stop seen).next r = Visitor.stopping stop (seen + 1) := rfl
      rw [Visitor.shown_cons, List.take_succ_cons, haccepts, hnext, ih]
      by_cases hstop : seen + 1 < stop
      · have hmax : max (stop - seen) 1 = max (stop - (seen + 1)) 1 + 1 := by omega
        simp [hstop, hmax]
      · have hmax : max (stop - seen) 1 = 1 := by omega
        simp [hstop, hmax]

/-- A scan that is cut shows what a visitor is shown that stops there. -/
theorem upTo_rows {s : Scan} {stop limit : Nat} (h : s.rows.length ≤ limit) :
    (s.upTo stop).rows = (Visitor.stopping stop).shown limit s.rows := by
  rw [shown_stopping, List.take_of_length_le h, Nat.sub_zero]
  unfold upTo
  split
  · rfl
  · exact (List.take_of_length_le (by omega)).symm

end Scan

namespace Memory

/-- The rows ascend to the next sequence number, the index tells the position of every message that has
an id and of no other, and every record is kept under its own key. -/
structure Topic.Coherent (t : Topic) : Prop where
  ascending : t.rows.Pairwise fun a b => a.sequence < b.sequence
  below : ∀ r ∈ t.rows, r.sequence < t.nextSequence
  indexed : ∀ id w, t.byId.find? id = some w ↔ id ≠ "" ∧ ∃ r ∈ t.rows, r.id = id ∧ r.mark = w
  keyed : ∀ p ∈ t.subscriptions.pairs, p.2.key = p.1

def Topics.Coherent (ts : Topics) : Prop := ∀ p ∈ ts.pairs, p.2.Coherent

/-- What is committed, or a working copy of some transaction. -/
def Objects.Holds (s : Objects) (ts : Topics) : Prop :=
  ts = s.committed ∨ ∃ n x, s.object n = some x ∧ x.working = some ts

variable {t : Topic} {k : SubscriberKey} {w : Watermark} {r : Row} {ts : Topics} {d : String}

theorem coherent_empty : ({} : Topic).Coherent where
  ascending := List.Pairwise.nil
  below := by simp
  indexed := by simp
  keyed := by simp [EmptyCollection.emptyCollection]

/-- No message has an id that the index does not know. -/
theorem unknown_id {id : String} (h : t.Coherent) (hid : id ≠ "") (hnone : t.byId.find? id = none) :
    ¬ ∃ x ∈ t.rows, x.id = id ∧ x.mark = w := by
  rintro ⟨x, hx, hxid, -⟩
  have hfound := (h.indexed id x.mark).2 ⟨hid, x, hx, hxid, rfl⟩
  rw [hnone] at hfound
  cases hfound

theorem position_append {id : String} {x : Row} :
    (∃ y ∈ t.rows ++ [x], y.id = id ∧ y.mark = w) ↔
      (∃ y ∈ t.rows, y.id = id ∧ y.mark = w) ∨ x.id = id ∧ x.mark = w := by
  simp only [List.mem_append, List.mem_singleton, or_and_right, exists_or, exists_eq_left]

/-- A message that is stored comes last, and is the only one with its id if it has one. -/
theorem coherent_append (h : t.Coherent) : (t.append r).2.Coherent := by
  unfold Topic.append
  split
  · exact h
  · rename_i hnew
    refine ⟨?_, ?_, fun id w => ?_, h.keyed⟩
    · refine List.pairwise_append.2 ⟨h.ascending, List.pairwise_singleton _ _, ?_⟩
      simpa using h.below
    · intro x hx
      rcases List.mem_append.1 hx with hx | hx
      · have := h.below x hx
        simp only
        omega
      · obtain rfl := List.mem_singleton.1 hx
        exact Int.lt_succ _
    · by_cases hid : r.id = ""
      · have hempty : r.id.isEmpty = true := by simp [hid]
        simp only [hempty, if_true]
        rw [h.indexed, position_append]
        refine and_congr_right fun hne => ⟨Or.inl, fun hpos => hpos.resolve_right fun hr => ?_⟩
        exact hne (hr.1.symm.trans hid)
      · have hfull : r.id.isEmpty = false := by simpa [String.isEmpty_iff] using hid
        have hnone : t.byId.find? r.id = none := by simpa [hfull] using hnew
        simp only [hfull, Bool.false_eq_true, if_false]
        rw [Assoc.find?_put, position_append]
        by_cases hsame : id = r.id
        · subst hsame
          rw [if_pos rfl, Option.some.injEq, or_iff_right (unknown_id h hid hnone)]
          exact ⟨fun hw => ⟨hid, rfl, hw⟩, fun hw => hw.2.2⟩
        · rw [if_neg hsame, h.indexed, or_iff_left fun hr => hsame hr.1.symm]

theorem coherent_put {s : Subscription} {retroactive : Bool} (h : t.Coherent) :
    (t.put s retroactive).Coherent := by
  refine ⟨h.ascending, h.below, h.indexed, fun p hp => ?_⟩
  rcases Assoc.mem_put hp with rfl | hp
  · simp only
    split
    · rename_i x hx
      exact h.keyed _ (Assoc.mem_of_find? hx)
    · rfl
  · exact h.keyed p hp

theorem coherent_setAcked (h : t.Coherent) : (t.setAcked k w).Coherent := by
  unfold Topic.setAcked
  split
  · rename_i s hs
    refine ⟨h.ascending, h.below, h.indexed, fun p hp => ?_⟩
    rcases Assoc.mem_put hp with rfl | hp
    · exact h.keyed (k, s) (Assoc.mem_of_find? hs)
    · exact h.keyed p hp
  · exact h

theorem coherent_delete (h : t.Coherent) : (t.delete k).Coherent :=
  ⟨h.ascending, h.below, h.indexed, fun p hp => h.keyed p (List.mem_filter.1 hp).1⟩

theorem coherent_topicOf (h : ts.Coherent) : (topicOf ts d).Coherent := by
  unfold topicOf
  cases hd : ts.find? d with
  | none => exact coherent_empty
  | some t => exact h _ (Assoc.mem_of_find? hd)

theorem topics_put (h : ts.Coherent) (ht : t.Coherent) : Topics.Coherent (ts.put d t) := by
  intro p hp
  rcases Assoc.mem_put hp with rfl | hp
  · exact ht
  · exact h p hp

/-- Whatever a call makes of all destinations, their parts fit together. -/
theorem coherent_after (h : ts.Coherent) (c : Call) : (ts.after c).Coherent := by
  cases c with
  | append r => exact topics_put h (coherent_append (coherent_topicOf h))
  | put s retroactive => exact topics_put h (coherent_put (coherent_topicOf h))
  | persist d k w =>
    simp only [Topics.after]
    split
    · exact topics_put h (coherent_setAcked (coherent_topicOf h))
    · exact h
  | delete d k =>
    simp only [Topics.after]
    split
    · exact topics_put h (coherent_delete (coherent_topicOf h))
    · exact h
  | _ => exact h

/-- What is committed and every working copy fit together. -/
def Objects.Coherent (s : Objects) : Prop := ∀ ts, s.Holds ts → ts.Coherent

variable {s s' s₀ : Objects} {n : Nat} {x : Transaction} {z : Option Transaction}
  {tr : List Event} {e : Event}

namespace Objects.Coherent

theorem committed (h : s.Coherent) : s.committed.Coherent := h _ (Or.inl rfl)

theorem view (h : s.Coherent) (hx : s.object n = some x) : (x.view s.committed).Coherent := by
  unfold Transaction.view
  cases hw : x.working with
  | none => exact h.committed
  | some ts => exact h ts (Or.inr ⟨n, x, hx, hw⟩)

theorem set (h : s.Coherent) (hz : ∀ y ∈ z, ∀ ts, y.working = some ts → ts.Coherent) :
    (s.set n z).Coherent := by
  rintro ts (rfl | ⟨m, y, hy, hw⟩)
  · exact h.committed
  · by_cases hm : m = n
    · exact hz y (by simpa [hm] using hy) ts hw
    · exact h ts (Or.inr ⟨m, y, by simpa [hm] using hy, hw⟩)

theorem unlocked (h : s.Coherent) : (s.unlocked x).Coherent := by
  unfold Objects.unlocked
  split <;> exact h

theorem commit (h : s.Coherent) (hts : ts.Coherent) : { s with committed := ts }.Coherent := by
  rintro ts' (rfl | hheld)
  · exact hts
  · exact h ts' (Or.inr hheld)

end Objects.Coherent

/-- A call changes what a transaction reads, or it changes nothing. -/
theorem perform_after (committed : Topics) (c : Call) :
    (x.perform committed c).2.view committed = (x.view committed).after c ∨
      (x.perform committed c).2 = x := by
  by_cases ha : x.phase = .active
  · exact Or.inl (perform_active committed c ha).2.2
  · refine Or.inr ?_
    cases c with
    | append | put => simp only [Transaction.perform, write_finished ha]
    | persist | delete =>
      simp only [Transaction.perform, write_finished ha]
      split <;> rfl
    | _ => rfl

theorem coherent_perform (h : s.Coherent) (hx : s.object n = some x) (c : Call) :
    ∀ ts, (x.perform s.committed c).2.working = some ts → ts.Coherent := by
  intro ts hw
  rcases perform_after (x := x) s.committed c with hview | hsame
  · have hcopy : (x.perform s.committed c).2.view s.committed = ts := by
      simp [Transaction.view, hw]
    rw [← hcopy, hview]
    exact coherent_after (h.view hx) c
  · rw [hsame] at hw
    exact h ts (Or.inr ⟨n, x, hx, hw⟩)

theorem coherent_step (h : s.Coherent) (he : Step s e s') : s'.Coherent := by
  cases he with
  | begin => exact h.set (by simp)
  | perform c hx => exact h.set (by simpa using coherent_perform h hx c)
  | @commit n x hx =>
    by_cases ha : x.phase = .active
    · rw [commit_active ha]
      exact (h.set (by simp)).unlocked.commit (h.view hx)
    · rw [commit_finished ha]
      refine (h.set ?_).unlocked.commit h.committed
      simpa using fun ts hw => h ts (Or.inr ⟨n, x, hx, hw⟩)
  | @rollback n x hx =>
    refine (h.set ?_).unlocked
    unfold Transaction.rollback
    split
    · simp
    · simpa using fun ts hw => h ts (Or.inr ⟨n, x, hx, hw⟩)
  | destroy hx => exact (h.set (by simp)).unlocked

theorem coherent_new : ({} : Objects).Coherent := by
  rintro ts (rfl | ⟨n, x, hx, -⟩)
  · simp [Topics.Coherent, EmptyCollection.emptyCollection]
  · cases hx

theorem coherent_run (hs : s₀.Coherent) (h : Run s₀ tr s) : s.Coherent := by
  induction h with
  | nil => exact hs
  | snoc _ he ih => exact coherent_step ih he

/-- A scan shows a visitor what one would be shown that goes through all messages in turn. -/
theorem visitAfter_eq {above : Watermark} {limit : Nat} {v : Visitor} (h : t.Coherent)
    (hk : (t.get k).isSome) :
    t.visitAfter k above limit v =
      v.shown limit (t.rows.filter fun r => above.sequence < r.sequence) := by
  obtain ⟨record, hrecord⟩ := Option.isSome_iff_exists.1 hk
  simp only [Topic.visitAfter, hrecord, rowsAbove_eq_filter h.ascending]

/-- The answer to a scan is what any visitor is shown rows of. -/
theorem visitAfter_answer {above : Watermark} {limit : Nat} {v : Visitor} :
    t.visitAfter k above limit v = v.shown limit (t.scanAfter k above limit) := by
  rw [scanAfter_eq, Topic.visitAfter]
  cases t.get k with
  | none => simp
  | some record => exact Visitor.shown_take.symm

theorem length_scanAfter {above : Watermark} {limit : Nat} :
    (t.scanAfter k above limit).length ≤ limit := by
  rw [scanAfter_eq]
  cases t.get k with
  | none => exact Nat.zero_le _
  | some record => exact List.length_take_le ..

/-- Whatever transactions are run, and also while they are open, the parts of every topic fit together.
So a scan shows a visitor the messages above a position in their order: as many as the limit lets
through, up to the first that the visitor refuses and with it, and no fewer. -/
theorem scans_as_filter (h : Run {} tr s) :
    (∀ ts, s.Holds ts → ∀ d t, ts.find? d = some t → t.Coherent) ∧
    ∀ n x, s.object n = some x → ∀ d k above limit,
      ((x.sees s.committed d).get k).isSome →
      (∀ v shown, (x.sees s.committed d).visitAfter k above limit v = shown ↔
        v.Sees limit ((x.sees s.committed d).rows.filter fun r => above.sequence < r.sequence)
          shown) ∧
      ∀ scan, (x.perform s.committed (.scanAfter d k above limit)).1 = scan →
        (∀ v, v.shown limit scan.rows = (x.sees s.committed d).visitAfter k above limit v) ∧
        ∀ stop, (scan.upTo stop).rows =
          (x.sees s.committed d).visitAfter k above limit (.stopping stop) := by
  have hs := coherent_run coherent_new h
  refine ⟨fun ts hts d t ht => hs ts hts _ (Assoc.mem_of_find? ht), fun n x hx d k above limit hk => ?_⟩
  have ht : (x.sees s.committed d).Coherent := coherent_topicOf (hs.view hx)
  refine ⟨fun v shown => ?_, ?_⟩
  · rw [visitAfter_eq ht hk]
    exact Visitor.shown_eq_iff
  · rintro scan rfl
    refine ⟨fun v => visitAfter_answer.symm, fun stop => ?_⟩
    rw [visitAfter_answer]
    exact Scan.upTo_rows length_scanAfter

/-- Refuses to go on after one message. -/
def refusing (id : String) : Visitor := ⟨Unit, (), fun _ r => (r.id ≠ id, ())⟩

/-- Three messages are committed, one of which has no id. The copy of an open transaction has a fourth
one, and a subscriber that is shown the second and the third. -/
theorem refused_row_is_seen : ∃ tr s x, Run {} tr s ∧ s.object 1 = some x ∧
    x.phase = .active ∧ x.sees s.committed "orders" ≠ topicOf s.committed "orders" ∧
    (x.sees s.committed "orders").Coherent ∧
    ∃ shown, (refusing "m3").Sees 3
        ((x.sees s.committed "orders").rows.filter fun r => 1 < r.sequence) shown ∧
      shown.map (·.sequence) = [2, 3] := by
  have h₁ := (Run.nil {}).snoc (.begin rfl)
  have h₂ := h₁.snoc (.perform (n := 0) (.append { destination := "orders", id := "m1" }) rfl)
  have h₃ := h₂.snoc (.perform (n := 0) (.append { destination := "orders" }) rfl)
  have h₄ := h₃.snoc (.perform (n := 0) (.append { destination := "orders", id := "m3" }) rfl)
  have h₅ := h₄.snoc (.commit (n := 0) rfl)
  have h₆ := h₅.snoc (.begin rfl)
  have h₇ := h₆.snoc (.perform (n := 1) (.put ⟨"orders", ⟨"A", none⟩, "", true, .start⟩ true) rfl)
  have h₈ := h₇.snoc (.perform (n := 1) (.append { destination := "orders", id := "m4" }) rfl)
  refine ⟨_, _, _, h₈, rfl, rfl, by decide +kernel, ?_, ?_⟩
  · exact (scans_as_filter h₈).1 _ (Or.inr ⟨1, _, rfl, rfl⟩) "orders" _ rfl
  · have hscan := (scans_as_filter h₈).2 1 _ rfl "orders" ⟨"A", none⟩ ⟨1, 0⟩ 3 (by decide +kernel)
    exact ⟨_, (hscan.1 (refusing "m3") _).1 rfl, by decide +kernel⟩

end Memory
end DurableTopic.Repository

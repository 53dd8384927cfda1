import DurableTopic.Proofs.Memory
import Mathlib.Data.List.Basic
import Mathlib.Data.List.TakeWhile
/-! Transactions of a repository in memory, one at a time under its lock. However the transaction
objects are used, the repository holds what the committed transactions wrote, in the order of their
commits, and nothing else. -/
namespace DurableTopic.Repository.Memory

/-- What a call makes of all destinations. -/
def Topics.after (ts : Topics) : Call → Topics
  | .append r => ts.put r.destination ((topicOf ts r.destination).append r).2
  | .persist d k w =>
    if (topicOf ts d).moves k w then ts.put d ((topicOf ts d).setAcked k w) else ts
  | .put s retroactive => ts.put s.destination ((topicOf ts s.destination).put s retroactive)
  | .delete d k =>
    if ((topicOf ts d).get k).isSome then ts.put d ((topicOf ts d).delete k) else ts
  | _ => ts

/-- What a call is answered where all destinations are as given. -/
def Topics.reply (ts : Topics) : (c : Call) → c.Reply
  | .append r => .ok ((topicOf ts r.destination).append r).1
  | .resolve d id => .ok ((topicOf ts d).resolve id)
  | .persist .. | .put .. | .delete .. => .ok .success
  | .load d k => .ok (((topicOf ts d).get k).elim .start (·.acked))
  | .scanAfter d k above limit => { rows := (topicOf ts d).scanAfter k above limit }
  | .scanAll d k => { rows := (topicOf ts d).undelivered k }
  | .count d k => .ok ((topicOf ts d).undelivered k).length
  | .get d k => .ok ((topicOf ts d).get k)
  | .list d => .ok (topicOf ts d).subscriptions.values

/-- A repository and the transaction objects that were made on it, by number. -/
structure Objects where
  committed : Topics := ∅
  object : Nat → Option Transaction := fun _ => none
  count : Nat := 0
  /-- The object that holds the lock. -/
  holder : Option Nat := none

/-- Something is done with a transaction object. -/
inductive Event where
  | begun (n : Nat)
  | performed (n : Nat) (c : Call) (a : c.Reply)
  | committed (n : Nat) (a : Except Failure Unit)
  | rolledBack (n : Nat)
  | destroyed (n : Nat)

namespace Objects

def set (s : Objects) (n : Nat) (x : Option Transaction) : Objects :=
  { s with object := fun m => if m = n then x else s.object m }

/-- The lock that an active transaction held is free once it is over. -/
def unlocked (s : Objects) (x : Transaction) : Objects :=
  if x.phase = .active then { s with holder := none } else s

section

variable {s : Objects} {n m : Nat} {x : Option Transaction} {t : Transaction}

@[simp] theorem set_committed : (s.set n x).committed = s.committed := rfl

@[simp] theorem set_count : (s.set n x).count = s.count := rfl

@[simp] theorem set_holder : (s.set n x).holder = s.holder := rfl

@[simp] theorem set_object : (s.set n x).object m = if m = n then x else s.object m := rfl

theorem unlocked_active (h : t.phase = .active) : s.unlocked t = { s with holder := none } :=
  if_pos h

theorem unlocked_finished (h : t.phase ≠ .active) : s.unlocked t = s := if_neg h

end

/-- No transaction was begun yet. -/
structure New (s : Objects) : Prop where
  object : ∀ n, s.object n = none
  holder : s.holder = none

end Objects

/-- One thing happens: a transaction begins, for which the lock must be free, or a transaction object
is used, whether or not it is finished. An object that is destroyed is rolled back first. -/
inductive Step : Objects → Event → Objects → Prop where
  | begin {s : Objects} (h : s.holder = none) :
      Step s (.begun s.count)
        { s.set s.count (some {}) with count := s.count + 1, holder := some s.count }
  | perform {s : Objects} {n : Nat} {x : Transaction} (c : Call) (h : s.object n = some x) :
      Step s (.performed n c (x.perform s.committed c).1)
        (s.set n (some (x.perform s.committed c).2))
  | commit {s : Objects} {n : Nat} {x : Transaction} (h : s.object n = some x) :
      Step s (.committed n (x.commit s.committed).1)
        { (s.set n (some (x.commit s.committed).2.2)).unlocked x with
          committed := (x.commit s.committed).2.1 }
  | rollback {s : Objects} {n : Nat} {x : Transaction} (h : s.object n = some x) :
      Step s (.rolledBack n) ((s.set n (some x.rollback)).unlocked x)
  | destroy {s : Objects} {n : Nat} {x : Transaction} (h : s.object n = some x) :
      Step s (.destroyed n) ((s.set n none).unlocked x)

/-- Things that happen, from left to right. -/
inductive Run : Objects → List Event → Objects → Prop where
  | nil (s : Objects) : Run s [] s
  | snoc {s s' s'' : Objects} {tr : List Event} {e : Event} (h : Run s tr s')
      (he : Step s' e s'') : Run s (tr ++ [e]) s''

namespace Event

/-- The object that is used. -/
def number : Event → Nat
  | begun n | performed n .. | committed n _ | rolledBack n | destroyed n => n

def begins (n : Nat) : Event → Bool
  | begun m => m = n
  | _ => false

/-- Whether a transaction is over with this event. A commit that fails leaves it as it is. -/
def finishes (n : Nat) : Event → Bool
  | committed m (.ok _) | rolledBack m | destroyed m => m = n
  | _ => false

/-- What a transaction is asked for. -/
def call? (n : Nat) : Event → Option Call
  | performed m c _ => if m = n then some c else none
  | _ => none

/-- The transaction whose commit returned. -/
def commit? : Event → Option Nat
  | committed n (.ok _) => some n
  | _ => none

end Event

/-- A transaction is committed, rolled back or destroyed. -/
def Finished (n : Nat) (tr : List Event) : Prop := ∃ e ∈ tr, e.finishes n

/-- A transaction was begun and is not over. -/
def Open (n : Nat) (tr : List Event) : Prop := (∃ e ∈ tr, e.begins n) ∧ ¬ Finished n tr

/-- What a transaction was asked for until it was over. -/
def asked (n : Nat) (tr : List Event) : List Call :=
  (tr.takeWhile (!·.finishes n)).filterMap (·.call? n)

/-- What the committed transactions make of all destinations, one after the other. -/
def serial (ts : Topics) (tr : List Event) : Topics :=
  (tr.filterMap Event.commit?).foldl (fun ts n => (asked n tr).foldl Topics.after ts) ts

/-- What was committed when a transaction began. -/
def basis (ts : Topics) (n : Nat) (tr : List Event) : Topics :=
  serial ts (tr.takeWhile (!·.begins n))

/-- A transaction's own writes on top of what was committed when it began. -/
def ownView (ts : Topics) (n : Nat) (tr : List Event) : Topics :=
  (asked n tr).foldl Topics.after (basis ts n tr)

section

variable {tr : List Event} {e : Event} {n m : Nat} {ts : Topics}

theorem takeWhile_grow {α : Type} {p : α → Bool} {l l' : List α} (h : ∃ a ∈ l, p a = false) :
    (l ++ l').takeWhile p = l.takeWhile p := by
  induction l with
  | nil => simp at h
  | cons a l ih =>
    cases ha : p a with
    | false => simp [ha]
    | true =>
      have : ∃ b ∈ l, p b = false := by simpa [ha] using h
      simp [ha, ih this]

theorem finished_snoc : Finished n (tr ++ [e]) ↔ Finished n tr ∨ e.finishes n := by
  simp [Finished, or_and_right, exists_or]

theorem open_snoc (hb : e.begins n = false) :
    Open n (tr ++ [e]) ↔ Open n tr ∧ e.finishes n = false := by
  simp only [Open, finished_snoc, List.mem_append, List.mem_singleton, or_and_right, exists_or,
    exists_eq_left, hb, Bool.false_eq_true, or_false, not_or, Bool.not_eq_true, and_assoc]

theorem asked_snoc (n : Nat) (tr : List Event) (e : Event) :
    Finished n tr ∧ asked n (tr ++ [e]) = asked n tr ∨
    ¬ Finished n tr ∧ asked n (tr ++ [e]) = asked n tr ++ (e.call? n).toList := by
  by_cases h : Finished n tr
  · obtain ⟨x, hx, hf⟩ := h
    refine Or.inl ⟨⟨x, hx, hf⟩, ?_⟩
    rw [asked, takeWhile_grow ⟨x, hx, by simp [hf]⟩, ← asked]
  · refine Or.inr ⟨h, ?_⟩
    have hall : ∀ x ∈ tr, (!x.finishes n) = true := fun x hx => by
      simpa using fun hf => h ⟨x, hx, hf⟩
    rw [asked, asked, List.takeWhile_append_of_pos hall, List.filterMap_append,
      List.takeWhile_eq_self_iff.2 hall]
    congr 1
    cases e with
    | performed m c a =>
      by_cases hm : m = n <;> simp [Event.finishes, Event.call?, hm]
    | _ =>
      rw [List.takeWhile_cons]
      split <;> simp [Event.call?]

theorem asked_same (h : e.call? n = none) : asked n (tr ++ [e]) = asked n tr := by
  rcases asked_snoc n tr e with ⟨-, ha⟩ | ⟨-, ha⟩
  · exact ha
  · simpa [h] using ha

theorem finished_of_commit (h : n ∈ tr.filterMap Event.commit?) : Finished n tr := by
  obtain ⟨e, he, hc⟩ := List.mem_filterMap.1 h
  refine ⟨e, he, ?_⟩
  unfold Event.commit? at hc
  split at hc
  · cases hc
    simp [Event.finishes]
  · cases hc

/-- What is committed grows by what a transaction was asked for, when its commit returns. -/
theorem serial_snoc : serial ts (tr ++ [e]) =
    (e.commit?.elim [] fun n => asked n tr).foldl Topics.after (serial ts tr) := by
  have hold : ∀ ns : List Nat, (∀ m ∈ ns, Finished m tr) → ∀ ts : Topics,
      ns.foldl (fun ts m => (asked m (tr ++ [e])).foldl Topics.after ts) ts =
        ns.foldl (fun ts m => (asked m tr).foldl Topics.after ts) ts := by
    intro ns hns ts
    refine List.foldl_ext _ _ _ fun _ m hm => ?_
    rcases asked_snoc m tr e with ⟨-, ha⟩ | ⟨hnot, -⟩
    · rw [ha]
    · exact absurd (hns m hm) hnot
  rw [serial, List.filterMap_append, List.foldl_append, hold _ fun _ => finished_of_commit, ← serial]
  cases hc : e.commit? with
  | none => simp [hc]
  | some n =>
    have hcall : e.call? n = none := by
      unfold Event.commit? at hc
      split at hc
      · rfl
      · cases hc
    simp [hc, asked_same hcall]

theorem basis_snoc (h : ∃ x ∈ tr, x.begins n) : basis ts n (tr ++ [e]) = basis ts n tr := by
  obtain ⟨x, hx, hb⟩ := h
  rw [basis, takeWhile_grow ⟨x, hx, by simp [hb]⟩, ← basis]

theorem basis_begun (h : ∀ x ∈ tr, x.number ≠ n) : basis ts n (tr ++ [.begun n]) = serial ts tr := by
  have hall : ∀ x ∈ tr, (!x.begins n) = true := fun x hx => by
    have := h x hx
    cases x <;> simp_all [Event.begins, Event.number]
  rw [basis, List.takeWhile_append_of_pos hall]
  simp [Event.begins]

theorem asked_nil (h : ∀ x ∈ tr, x.number ≠ n) : asked n tr = [] := by
  rw [asked, List.filterMap_eq_nil_iff]
  intro x hx
  have := h x ((List.takeWhile_prefix _).subset hx)
  cases x <;> simp_all [Event.call?, Event.number]

theorem not_finished (h : ∀ x ∈ tr, x.number ≠ n) : ¬ Finished n tr := by
  rintro ⟨x, hx, hf⟩
  have := h x hx
  unfold Event.finishes at hf
  split at hf <;> simp_all [Event.number]

end

section

variable {x : Transaction} {c : Call} {committed : Topics}

/-- A write of an active transaction is done to all that it reads. -/
theorem view_write {α : Type} (committed : Topics) (d : String) (f : Topic → α × Topic)
    (h : x.phase = .active) :
    (x.write committed d f).1 = .ok (f (topicOf (x.view committed) d)).1 ∧
    (x.write committed d f).2.phase = .active ∧
    (x.write committed d f).2.view committed =
      (x.view committed).put d (f (topicOf (x.view committed) d)).2 := by
  simp only [Transaction.write, h]
  exact ⟨trivial, trivial, rfl⟩

/-- An active transaction reads its own writes, and it does not matter when it took its copy. -/
theorem perform_active (committed : Topics) (c : Call) (h : x.phase = .active) :
    (x.perform committed c).1 = (x.view committed).reply c ∧
    (x.perform committed c).2.phase = .active ∧
    (x.perform committed c).2.view committed = (x.view committed).after c := by
  cases c with
  | append r => exact view_write committed r.destination (·.append r) h
  | put s retroactive =>
    exact view_write committed s.destination (fun t => (Status.success, t.put s retroactive)) h
  | persist d k w =>
    simp only [Transaction.perform, Topics.after]
    split
    · exact view_write committed d (fun t => (Status.success, t.setAcked k w)) h
    · exact ⟨rfl, h, rfl⟩
  | delete d k =>
    simp only [Transaction.perform, Topics.after]
    split
    · exact view_write committed d (fun t => (Status.success, t.delete k)) h
    · exact ⟨rfl, h, rfl⟩
  | _ => exact ⟨rfl, h, rfl⟩

theorem write_finished {α : Type} {d : String} {f : Topic → α × Topic} (h : x.phase ≠ .active) :
    x.write committed d f = (.error alreadyFinished, x) := by
  unfold Transaction.write
  split
  · exact absurd ‹_› h
  · rfl

/-- A finished transaction reads what is committed and refuses whatever would change it. -/
theorem perform_finished (committed : Topics) (c : Call) (h : x.phase ≠ .active)
    (hw : x.working = none) :
    (x.perform committed c).2 = x ∧
    (committed.after c ≠ committed → (x.perform committed c).1 = c.failed alreadyFinished) ∧
    (c.writes = false → (x.perform committed c).1 = committed.reply c) := by
  have hv : x.view committed = committed := by simp [Transaction.view, hw]
  cases c with
  | append | put =>
    simp only [Transaction.perform, write_finished h]
    exact ⟨trivial, fun _ => rfl, fun hr => by cases hr⟩
  | persist | delete =>
    simp only [Transaction.perform, hv, Topics.after]
    split
    · rw [write_finished h]
      exact ⟨rfl, fun _ => rfl, fun hr => by cases hr⟩
    · exact ⟨rfl, fun hne => absurd rfl hne, fun hr => by cases hr⟩
  | _ =>
    simp only [Transaction.perform, hv]
    exact ⟨trivial, fun hne => absurd rfl hne, fun _ => rfl⟩

theorem commit_active (h : x.phase = .active) :
    x.commit committed = (.ok (), x.view committed, ⟨none, .committed⟩) := by
  simp [Transaction.commit, h]

theorem commit_finished (h : x.phase ≠ .active) :
    x.commit committed = (.error alreadyFinished, committed, x) := by
  unfold Transaction.commit
  split
  · exact absurd ‹_› h
  · rfl

theorem rollback_finished (h : x.phase ≠ .active) : x.rollback = x := by
  unfold Transaction.rollback
  split
  · exact absurd ‹_› h
  · rfl

end

/-- What holds of a repository and its transaction objects after some events: whoever holds the lock is
open, and what was committed has not changed since it began. -/
structure Objects.Sound (ts : Topics) (tr : List Event) (s : Objects) : Prop where
  committed : s.committed = serial ts tr
  numbered : ∀ e ∈ tr, e.number < s.count
  begun : ∀ n x, s.object n = some x → ∃ e ∈ tr, e.begins n
  holder : ∀ n, s.holder = some n ↔ Open n tr
  active : ∀ n, Open n tr → ∃ x, s.object n = some x ∧ x.phase = .active ∧
    basis ts n tr = s.committed ∧ x.view s.committed = ownView ts n tr
  ended : ∀ n x, s.object n = some x → Finished n tr → x.phase ≠ .active ∧ x.working = none

section

variable {s s' s₀ : Objects} {tr : List Event} {e : Event} {n m : Nat} {ts : Topics}
  {x y : Transaction}

theorem number_of_finishes (h : e.finishes m) : m = e.number := by
  unfold Event.finishes at h
  split at h <;> simp_all [Event.number]

theorem number_of_commit? (h : e.commit? = some m) : m = e.number := by
  unfold Event.commit? at h
  split at h
  · exact (Option.some.inj h).symm
  · cases h

theorem call?_of_ne (h : m ≠ e.number) : e.call? m = none := by
  unfold Event.call?
  split
  · exact if_neg (Ne.symm h)
  · rfl

theorem set_same (h : s.object n = some x) : s.set n (some x) = s := by
  obtain ⟨committed, object, count, holder⟩ := s
  simp only [Objects.set, Objects.mk.injEq, true_and, and_true]
  funext m
  split
  · rename_i hm
    exact hm ▸ h.symm
  · rfl

namespace Objects.Sound

theorem phase (hs : s.Sound ts tr) (h : s.object n = some x) :
    x.phase = .active ↔ ¬ Finished n tr := by
  refine ⟨fun ha hf => (hs.ended n x h hf).1 ha, fun hf => ?_⟩
  obtain ⟨y, hy, ha, -⟩ := hs.active n ⟨hs.begun n x h, hf⟩
  rw [h] at hy
  cases hy
  exact ha

theorem number_lt (hs : s.Sound ts tr) (h : s.object n = some x) : n < s.count := by
  obtain ⟨e, he, hb⟩ := hs.begun n x h
  have := hs.numbered e he
  cases e <;> simp_all [Event.begins, Event.number]

theorem numbered_snoc (hs : s.Sound ts tr) (h : s.object n = some x) (he : e.number = n) :
    ∀ e' ∈ tr ++ [e], e'.number < s.count := by
  intro e' he'
  rcases List.mem_append.1 he' with he' | he'
  · exact hs.numbered e' he'
  · rw [List.mem_singleton.1 he', he]
    exact hs.number_lt h

theorem begun_snoc (hs : s.Sound ts tr) (h : s.object n = some x) (z : Option Transaction) :
    ∀ m y, (s.set n z).object m = some y → ∃ e' ∈ tr ++ [e], e'.begins m := by
  intro m y hy
  have : ∃ y', s.object m = some y' := by
    by_cases hm : m = n
    · exact ⟨x, hm ▸ h⟩
    · exact ⟨y, by simpa [hm] using hy⟩
  obtain ⟨y', hy'⟩ := this
  obtain ⟨e', he', hb⟩ := hs.begun m y' hy'
  exact ⟨e', List.mem_append_left _ he', hb⟩

/-- Only the holder of the lock is open. -/
theorem only (hs : s.Sound ts tr) (hn : Open n tr) (hm : Open m tr) : m = n := by
  simpa [(hs.holder n).2 hn, eq_comm] using (hs.holder m).2 hm

/-- The lock is free, so nothing is open, and the number is new. -/
theorem begin (hs : s.Sound ts tr) (h : s.holder = none) :
    Objects.Sound ts (tr ++ [.begun s.count])
      { s.set s.count (some {}) with count := s.count + 1, holder := some s.count } := by
  have hnew : ∀ x ∈ tr, x.number ≠ s.count := fun x hx => (hs.numbered x hx).ne
  have hnone : ∀ m, ¬ Open m tr := fun m hm => by simpa [h] using (hs.holder m).2 hm
  have hopen : ∀ m, Open m (tr ++ [.begun s.count]) ↔ m = s.count := by
    intro m
    by_cases hm : m = s.count
    · subst hm
      refine iff_of_true ⟨⟨.begun s.count, by simp, by simp [Event.begins]⟩, ?_⟩ rfl
      rw [finished_snoc]
      simpa [Event.finishes] using not_finished hnew
    · refine iff_of_false (fun ho => hnone m ((open_snoc ?_).1 ho).1) hm
      simpa [Event.begins] using Ne.symm hm
  refine ⟨?_, ?_, ?_, ?_, ?_, ?_⟩
  · simp only [serial_snoc, Event.commit?, Option.elim_none, List.foldl_nil, set_committed]
    exact hs.committed
  · intro e he
    rcases List.mem_append.1 he with he | he
    · exact (hs.numbered e he).trans (Nat.lt_succ_self _)
    · rw [List.mem_singleton.1 he]
      exact Nat.lt_succ_self _
  · intro m y hy
    by_cases hm : m = s.count
    · exact ⟨.begun s.count, by simp, by simp [Event.begins, hm]⟩
    · obtain ⟨e, he, hb⟩ := hs.begun m y (by simpa [hm] using hy)
      exact ⟨e, List.mem_append_left _ he, hb⟩
  · intro m
    rw [hopen]
    simp [eq_comm]
  · intro m hm
    rw [hopen] at hm
    subst hm
    refine ⟨{}, by simp, rfl, (basis_begun hnew).trans hs.committed.symm, ?_⟩
    rw [ownView, asked_same (by rfl), asked_nil hnew, basis_begun hnew]
    exact hs.committed
  · intro m y hy hf
    have hf : Finished m tr := by simpa [finished_snoc, Event.finishes] using hf
    have hm : m ≠ s.count := fun hm => not_finished hnew (hm ▸ hf)
    exact hs.ended m y (by simpa [hm] using hy) hf

/-- An open transaction is asked for something. -/
theorem perform (hs : s.Sound ts tr) (h : s.object n = some x) (ha : x.phase = .active) (c : Call) :
    (s.set n (some (x.perform s.committed c).2)).Sound ts
      (tr ++ [.performed n c (x.perform s.committed c).1]) := by
  set e : Event := .performed n c (x.perform s.committed c).1
  have hn : Open n tr := ⟨hs.begun n x h, (hs.phase h).1 ha⟩
  have hopen : ∀ m, Open m (tr ++ [e]) ↔ Open m tr := fun m => by
    rw [open_snoc rfl, and_iff_left (show e.finishes m = false from rfl)]
  obtain ⟨-, hp, hv⟩ := perform_active s.committed c ha
  refine ⟨?_, hs.numbered_snoc h rfl, hs.begun_snoc h _, ?_, ?_, ?_⟩
  · simp only [serial_snoc, show e.commit? = none from rfl, Option.elim_none, List.foldl_nil]
    exact hs.committed
  · intro m
    rw [hopen]
    exact hs.holder m
  · intro m hm
    rw [hopen] at hm
    obtain rfl := hs.only hn hm
    obtain ⟨y, hy, -, hb, hyv⟩ := hs.active m hm
    obtain rfl : x = y := by simpa [h] using hy
    have hbasis : basis ts m (tr ++ [e]) = basis ts m tr := basis_snoc hm.1
    have hasked : asked m (tr ++ [e]) = asked m tr ++ [c] := by
      rcases asked_snoc m tr e with ⟨hf, -⟩ | ⟨-, ha⟩
      · exact absurd hf hm.2
      · simpa [e, Event.call?] using ha
    refine ⟨(x.perform s.committed c).2, by simp, hp, hbasis.trans hb, hv.trans ?_⟩
    rw [ownView, hasked, hbasis, List.foldl_append, ← ownView, hyv]
    rfl
  · intro m y hy hf
    have hf : Finished m tr := by simpa [finished_snoc, show e.finishes m = false from rfl] using hf
    have hm : m ≠ n := fun hm => hn.2 (hm ▸ hf)
    exact hs.ended m y (by simpa [hm] using hy) hf

/-- An open transaction is over: it was committed, or the committed state is as before. -/
theorem finish (hs : s.Sound ts tr) (h : s.object n = some x) (ha : x.phase = .active)
    (he : e.number = n) (hf : e.finishes n) {z : Option Transaction}
    (hz : ∀ y ∈ z, y.phase ≠ .active ∧ y.working = none) {ts' : Topics}
    (hts : ts' = if e.commit? = some n then x.view s.committed else s.committed) :
    Objects.Sound ts (tr ++ [e]) { s.set n z with committed := ts', holder := none } := by
  have hn : Open n tr := ⟨hs.begun n x h, (hs.phase h).1 ha⟩
  have hnone : ∀ m, ¬ Open m (tr ++ [e]) := by
    intro m hm
    have hb : e.begins m = false := by
      unfold Event.finishes at hf
      split at hf <;> simp_all [Event.begins]
    obtain ⟨hm, hfm⟩ := (open_snoc hb).1 hm
    rw [hs.only hn hm, hf] at hfm
    cases hfm
  refine ⟨?_, hs.numbered_snoc h he, hs.begun_snoc h z, ?_, ?_, ?_⟩
  · obtain ⟨y, hy, -, hb, hyv⟩ := hs.active n hn
    obtain rfl : x = y := by simpa [h] using hy
    rw [serial_snoc, ← hs.committed, ← hb]
    show ts' = _
    cases hc : e.commit? with
    | none => simpa [hc, hb] using hts
    | some m =>
      obtain rfl : m = n := (number_of_commit? hc).trans he
      rw [hts, if_pos hc, hyv]
      rfl
  · exact fun m => iff_of_false nofun (hnone m)
  · exact fun m hm => absurd hm (hnone m)
  · intro m y hy hfm
    by_cases hm : m = n
    · exact hz y (by simpa [hm] using hy)
    · refine hs.ended m y (by simpa [hm] using hy) ?_
      rcases finished_snoc.1 hfm with hfm | hfm
      · exact hfm
      · exact absurd ((number_of_finishes hfm).trans he) hm

/-- A finished transaction changes nothing. -/
theorem still (hs : s.Sound ts tr) (h : s.object n = some x) (ha : x.phase ≠ .active)
    (he : e.number = n) (hb : ∀ m, e.begins m = false) (hc : e.commit? = none)
    {z : Option Transaction} (hz : ∀ y ∈ z, y = x) : (s.set n z).Sound ts (tr ++ [e]) := by
  have hn : Finished n tr := by simpa [hs.phase h] using ha
  have hfin : ∀ m, Finished m (tr ++ [e]) ↔ Finished m tr := by
    intro m
    rw [finished_snoc, or_iff_left_iff_imp]
    intro hf
    rw [number_of_finishes hf, he]
    exact hn
  have hopen : ∀ m, Open m (tr ++ [e]) ↔ Open m tr := fun m => by
    rw [open_snoc (hb m), and_iff_left_iff_imp, ← Bool.not_eq_true]
    exact fun ho hf => ho.2 ((hfin m).1 (finished_snoc.2 (Or.inr hf)))
  have hasked : ∀ m, Open m tr → asked m (tr ++ [e]) = asked m tr := fun m hm =>
    asked_same (call?_of_ne fun hm' => hm.2 (hm'.trans he ▸ hn))
  refine ⟨?_, hs.numbered_snoc h he, hs.begun_snoc h z, ?_, ?_, ?_⟩
  · simp only [serial_snoc, hc, Option.elim_none, List.foldl_nil, set_committed]
    exact hs.committed
  · intro m
    rw [hopen]
    exact hs.holder m
  · intro m hm
    rw [hopen] at hm
    obtain ⟨y, hy, hp, hb, hyv⟩ := hs.active m hm
    have hm' : m ≠ n := fun hm' => hm.2 (hm' ▸ hn)
    exact ⟨y, by simpa [hm'] using hy, hp, (basis_snoc hm.1).trans hb,
      hyv.trans (by rw [ownView, ownView, hasked m hm, basis_snoc hm.1])⟩
  · intro m y hy hf
    rw [hfin] at hf
    by_cases hm : m = n
    · subst hm
      obtain rfl := hz y (by simpa using hy)
      exact hs.ended m y h hf
    · exact hs.ended m y (by simpa [hm] using hy) hf

end Objects.Sound

open Objects

theorem sound_new (h : s.New) : s.Sound s.committed [] where
  committed := rfl
  numbered := by simp
  begun n x hx := by simp [h.object n] at hx
  holder n := by simp [h.holder, Open]
  active n hn := by simp [Open] at hn
  ended n x hx := by simp [h.object n] at hx

theorem sound_step (hs : s.Sound ts tr) (h : Step s e s') : s'.Sound ts (tr ++ [e]) := by
  cases h with
  | begin h => exact hs.begin h
  | @perform n x c h =>
    by_cases ha : x.phase = .active
    · exact hs.perform h ha c
    · obtain ⟨hx, -⟩ := perform_finished s.committed c ha
        (hs.ended n x h (by simpa [hs.phase h] using ha)).2
      exact hs.still h ha rfl (fun _ => rfl) rfl (by simp [hx])
  | @commit n x h =>
    by_cases ha : x.phase = .active
    · rw [commit_active ha, unlocked_active ha]
      exact hs.finish h ha rfl (by simp [Event.finishes]) (by simp) (by simp [Event.commit?])
    · rw [commit_finished ha, unlocked_finished ha]
      exact hs.still h ha rfl (fun _ => rfl) rfl (by simp)
  | @rollback n x h =>
    by_cases ha : x.phase = .active
    · rw [unlocked_active ha]
      exact hs.finish h ha rfl (by simp [Event.finishes]) (by simp [Transaction.rollback, ha])
        (by simp [Event.commit?])
    · rw [rollback_finished ha, unlocked_finished ha]
      exact hs.still h ha rfl (fun _ => rfl) rfl (by simp)
  | @destroy n x h =>
    by_cases ha : x.phase = .active
    · rw [unlocked_active ha]
      exact hs.finish h ha rfl (by simp [Event.finishes]) (by simp) (by simp [Event.commit?])
    · rw [unlocked_finished ha]
      exact hs.still h ha rfl (fun _ => rfl) rfl (by simp)

theorem sound_run (hn : s₀.New) (h : Run s₀ tr s) : s.Sound s₀.committed tr := by
  induction h with
  | nil => exact sound_new hn
  | snoc _ he ih => exact sound_step ih he

/-- What is answered after some events, where a repository began with what is committed in `ts`. -/
def Told (ts : Topics) (tr : List Event) : Event → Prop
  | .begun _ => ∀ m, ¬ Open m tr
  | .performed n c a =>
    (¬ Finished n tr → a = (ownView ts n tr).reply c) ∧
    (Finished n tr → (c.writes = false → a = (serial ts tr).reply c) ∧
      ((serial ts tr).after c ≠ serial ts tr → a = c.failed alreadyFinished))
  | .committed n a =>
    (¬ Finished n tr → a = .ok ()) ∧ (Finished n tr → a = .error alreadyFinished)
  | .rolledBack _ | .destroyed _ => True

theorem told_step (hs : s.Sound ts tr) (h : Step s e s') : Told ts tr e := by
  cases h with
  | begin h => exact fun m hm => by simpa [h] using (hs.holder m).2 hm
  | @perform n x c h =>
    refine ⟨fun hn => ?_, fun hn => ?_⟩
    · obtain ⟨y, hy, ha, -, hv⟩ := hs.active n ⟨hs.begun n x h, hn⟩
      obtain rfl : x = y := by simpa [h] using hy
      rw [← hv]
      exact (perform_active s.committed c ha).1
    · obtain ⟨hp, hw⟩ := hs.ended n x h hn
      rw [← hs.committed]
      obtain ⟨-, hfail, hread⟩ := perform_finished s.committed c hp hw
      exact ⟨hread, hfail⟩
  | @commit n x h =>
    refine ⟨fun hn => ?_, fun hn => ?_⟩
    · rw [commit_active ((hs.phase h).2 hn)]
    · rw [commit_finished (hs.ended n x h hn).1]
  | rollback | destroy => trivial

/-- What is committed changes when a commit returns and at no other time. -/
theorem committed_step (h : Step s e s') (hc : e.commit? = none) : s'.committed = s.committed := by
  have hunlocked : ∀ (s : Objects) (x : Transaction), (s.unlocked x).committed = s.committed := by
    intro s x
    unfold Objects.unlocked
    split <;> rfl
  cases h with
  | begin | perform => rfl
  | @commit n x h =>
    by_cases ha : x.phase = .active
    · simp [commit_active ha, Event.commit?] at hc
    · rw [commit_finished ha]
  | rollback | destroy => rw [hunlocked, set_committed]

/-- Whatever is done with a finished transaction, other than to destroy it, changes nothing. -/
theorem finished_step (hs : s.Sound ts tr) (h : Step s e s') (hf : Finished e.number tr) :
    s' = s ∨ e = .destroyed e.number := by
  cases h with
  | begin =>
    obtain ⟨x, hx, hf⟩ := hf
    exact absurd (number_of_finishes hf).symm (hs.numbered x hx).ne
  | @perform n x c h =>
    obtain ⟨hp, hw⟩ := hs.ended n x h hf
    left
    rw [(perform_finished s.committed c hp hw).1, set_same h]
  | @commit n x h =>
    have hp := (hs.ended n x h hf).1
    left
    rw [commit_finished hp, unlocked_finished hp, set_same h]
  | @rollback n x h =>
    have hp := (hs.ended n x h hf).1
    left
    rw [rollback_finished hp, unlocked_finished hp, set_same h]
  | destroy => exact Or.inr rfl

/-- Transactions are atomic, and they are serial in the order of their commits. What is committed is
what the committed transactions were asked for, one after the other. An open transaction reads its own
writes on top of what was committed when it began. A finished one refuses to commit and to change
anything. -/
theorem transactions_serial (hn : s₀.New) (h : Run s₀ tr s) :
    s.committed = serial s₀.committed tr ∧
    ∀ e s', Step s e s' → Told s₀.committed tr e ∧
      (e.commit? = none → s'.committed = s.committed) ∧
      (Finished e.number tr → s' = s ∨ e = .destroyed e.number) := by
  have hs := sound_run hn h
  exact ⟨hs.committed, fun e s' he =>
    ⟨told_step hs he, committed_step he, finished_step hs he⟩⟩

/-- One order is committed, another is rolled back. -/
def twoOrders : List Event :=
  [.begun 0, .performed 0 (.append { destination := "orders", id := "m1" }) (.ok ⟨.success, 1⟩),
    .committed 0 (.ok ()),
    .begun 1, .performed 1 (.append { destination := "orders", id := "m2" }) (.ok ⟨.success, 2⟩),
    .rolledBack 1]

/-- The first order is all that is stored, and its transaction takes no more. -/
theorem transactions_serial_orders : ∃ s, Objects.New {} ∧ Run {} twoOrders s ∧
    (topicOf s.committed "orders").rows.map (·.id) = ["m1"] ∧
    ∀ a s', Step s (.performed 0 (.append { destination := "orders", id := "m3" }) a) s' →
      a = .error alreadyFinished ∧ s' = s := by
  have hn : Objects.New {} := ⟨fun _ => rfl, rfl⟩
  have h₁ := (Run.nil {}).snoc (.begin rfl)
  have h₂ := h₁.snoc (.perform (n := 0) (.append { destination := "orders", id := "m1" }) rfl)
  have h₃ := h₂.snoc (.commit (n := 0) rfl)
  have h₄ := h₃.snoc (.begin rfl)
  have h₅ := h₄.snoc (.perform (n := 1) (.append { destination := "orders", id := "m2" }) rfl)
  have h₆ := h₅.snoc (.rollback (n := 1) rfl)
  obtain ⟨hc, hstep⟩ := transactions_serial hn h₆
  have hf : Finished 0 twoOrders := ⟨.committed 0 (.ok ()), by simp [twoOrders], rfl⟩
  refine ⟨_, hn, h₆, by rw [hc]; decide +kernel, fun a s' h => ?_⟩
  obtain ⟨⟨-, ht⟩, -, hsame⟩ := hstep _ _ h
  exact ⟨(ht hf).2 (by decide +kernel), (hsame hf).resolve_right nofun⟩

end
end DurableTopic.Repository.Memory

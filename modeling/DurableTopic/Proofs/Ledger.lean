import DurableTopic.Repository.Call
/-! What a repository holds for one destination, and what an answer to a call says about it. The
backends differ in how they keep text, and agree on everything else. -/
namespace DurableTopic

/-- A key as a backend keeps it. -/
def SubscriberKey.spelled (spell : String → String) (k : SubscriberKey) : SubscriberKey :=
  ⟨spell k.client, k.name.map spell⟩

@[simp] theorem SubscriberKey.spelled_id (k : SubscriberKey) : k.spelled id = k := by
  simp [SubscriberKey.spelled]

namespace Repository

/-- The destination that a call is about. -/
def Call.destination : Call → String
  | append r => r.destination
  | put s _ => s.destination
  | resolve d _ | persist d _ _ | load d _ | scanAfter d _ _ _ | scanAll d _ | count d _ | get d _
  | delete d _ | list d => d

/-- Whether a call may change anything. -/
def Call.writes : Call → Bool
  | append _ | persist .. | put .. | delete .. => true
  | resolve .. | load .. | scanAfter .. | scanAll .. | count .. | get .. | list _ => false

/-- The messages of a destination in order, and its subscribers. -/
@[ext]
structure Ledger where
  rows : List Row
  record : SubscriberKey → Option Subscription

namespace Ledger

/-- Sequence numbers are positive and ascend. -/
structure Sound (l : Ledger) : Prop where
  ascending : l.rows.Pairwise fun a b => a.sequence < b.sequence
  positive : ∀ r ∈ l.rows, 0 < r.sequence

/-- The messages above a position, in order. -/
def above (l : Ledger) (w : Watermark) : List Row := l.rows.filter (·.mark.isAhead w)

/-- Where a new subscriber starts. -/
def startFor (l : Ledger) (retroactive : Bool) : Watermark :=
  match retroactive, l.rows.getLast? with
  | false, some r => ⟨r.sequence, 0⟩
  | _, _ => .start

/-- A message as it is stored. -/
def stored (spell : String → String) (r : Row) (n : Int) : Row :=
  { r with destination := spell r.destination, id := spell r.id, sequence := n }

def append (l : Ledger) (r : Row) : Ledger := { l with rows := l.rows ++ [r] }

/-- Changes the record of a subscriber, and of every key that is kept as the same. -/
def update (spell : String → String) (k : SubscriberKey)
    (f : Option Subscription → Option Subscription) (l : Ledger) : Ledger :=
  { l with
    record := fun j => if j.spelled spell = k.spelled spell then f (l.record j) else l.record j }

/-- A record whose position moves forward, if at all. -/
def advanced (w : Watermark) (s : Subscription) : Subscription :=
  if w.isAhead s.acked then { s with acked := w } else s

def persist (spell : String → String) (k : SubscriberKey) (w : Watermark) (l : Ledger) : Ledger :=
  l.update spell k (Option.map (advanced w))

/-- A registered subscriber keeps its position. -/
def put (spell : String → String) (s : Subscription) (retroactive : Bool) (l : Ledger) : Ledger :=
  l.update spell s.key fun
    | some old => some { old with selector := spell s.selector, retroactive }
    | none => some ⟨spell s.destination, s.key.spelled spell, spell s.selector, retroactive,
        l.startFor retroactive⟩

def delete (spell : String → String) (k : SubscriberKey) (l : Ledger) : Ledger :=
  l.update spell k fun _ => none

/-- A write is done exactly when it is reported as done. -/
def Wrote (a : Except Failure Status) (l written l' : Ledger) : Prop :=
  (∃ s, a = .ok s ∧ s.isOk ∧ l' = written) ∨ ((∀ s, a = .ok s → s.isOk = false) ∧ l' = l)

/-- What an answer to a call may be, and what the call leaves. -/
def Answers (spell : String → String) (l : Ledger) : (c : Call) → c.Reply → Ledger → Prop
  | .append r, a, l' =>
    (∃ x, a = .ok x ∧ x.status.isOk ∧ (∀ y ∈ l.rows, y.sequence < x.sequence) ∧ 0 < x.sequence ∧
      l' = l.append (stored spell r x.sequence)) ∨
    ((∀ x, a = .ok x → x.status.isOk = false) ∧ l' = l)
  | .persist _ k w, a, l' => Wrote a l (l.persist spell k w) l'
  | .put s retroactive, a, l' => Wrote a l (l.put spell s retroactive) l'
  | .delete _ k, a, l' => Wrote a l (l.delete spell k) l'
  | .load _ k, a, l' => l' = l ∧ ∀ w, a = .ok w → w = (l.record k).elim .start (·.acked)
  | .scanAfter _ k w _, a, l' => l' = l ∧ a.rows <+: (l.record k).elim [] fun _ => l.above w
  | .scanAll _ k, a, l' => l' = l ∧ a.rows <+: (l.record k).elim [] fun s => l.above s.acked
  | .get _ k, a, l' => l' = l ∧ ∀ o, a = .ok o → o = l.record k
  | .resolve .., _, l' | .count .., _, l' | .list _, _, l' => l' = l

variable {spell : String → String} {l l' written : Ledger} {w : Watermark} {r : Row}
  {k j : SubscriberKey}

theorem mem_above : r ∈ l.above w ↔ r ∈ l.rows ∧ w.sequence < r.sequence := by
  simp [above, Row.mark]

theorem wrote_or_same {a : Except Failure Status} (h : Wrote a l written l') :
    l' = written ∨ l' = l := by
  rcases h with ⟨_, _, _, h⟩ | ⟨_, h⟩
  · exact Or.inl h
  · exact Or.inr h

theorem wrote_ok {s : Status} (h : Wrote (.ok s) l written l') (hs : s.isOk) : l' = written := by
  rcases h with ⟨_, _, _, h⟩ | ⟨hno, _⟩
  · exact h
  · exact absurd hs (by simp [hno s rfl])

theorem sound_append (h : l.Sound) (hr : ∀ y ∈ l.rows, y.sequence < r.sequence)
    (hp : 0 < r.sequence) : (l.append r).Sound where
  ascending := by
    refine List.pairwise_append.2 ⟨h.ascending, List.pairwise_singleton _ _, ?_⟩
    simpa using hr
  positive := by
    intro x hx
    rcases List.mem_append.1 hx with hx | hx
    · exact h.positive x hx
    · simpa [List.mem_singleton.1 hx] using hp

theorem answers_read {c : Call} {a : c.Reply} (h : l.Answers spell c a l')
    (hc : c.writes = false) : l' = l := by
  cases c with
  | append | persist | put | delete => cases hc
  | load | scanAfter | scanAll | get => exact h.1
  | resolve | count | list => exact h

/-- No write touches what is stored but an append, which adds at the end. -/
theorem answers_rows {c : Call} {a : c.Reply} (h : l.Answers spell c a l') :
    l.rows <+: l'.rows := by
  cases c with
  | append r =>
    rcases h with ⟨x, _, _, _, _, rfl⟩ | ⟨_, rfl⟩
    · exact List.prefix_append ..
    · exact List.prefix_refl _
  | persist => rcases wrote_or_same h with rfl | rfl <;> exact List.prefix_refl _
  | put => rcases wrote_or_same h with rfl | rfl <;> exact List.prefix_refl _
  | delete => rcases wrote_or_same h with rfl | rfl <;> exact List.prefix_refl _
  | _ =>
    obtain rfl := answers_read h rfl
    exact List.prefix_refl _

theorem sound_of_rows (h : l.Sound) (hr : l'.rows = l.rows) : l'.Sound :=
  ⟨hr ▸ h.ascending, hr ▸ h.positive⟩

theorem answers_sound {c : Call} {a : c.Reply} (h : l.Answers spell c a l') (hl : l.Sound) :
    l'.Sound := by
  cases c with
  | append r =>
    rcases h with ⟨x, _, _, hx, hp, rfl⟩ | ⟨_, rfl⟩
    · exact sound_append hl hx hp
    · exact hl
  | persist => rcases wrote_or_same h with rfl | rfl <;> exact sound_of_rows hl rfl
  | put => rcases wrote_or_same h with rfl | rfl <;> exact sound_of_rows hl rfl
  | delete => rcases wrote_or_same h with rfl | rfl <;> exact sound_of_rows hl rfl
  | _ => exact answers_read h rfl ▸ hl

/-- The position of the first message above a position has the rest above it. -/
theorem above_first {rest : List Row} (h : l.Sound) (hr : l.above w = r :: rest) :
    l.above r.mark = rest := by
  obtain ⟨before, after, hl, hb, hw, ha⟩ := List.filter_eq_cons_iff.1 hr
  have hs := h.ascending
  rw [hl, List.pairwise_append, List.pairwise_cons] at hs
  obtain ⟨_, ⟨hafter, _⟩, hbefore⟩ := hs
  have hw : w.sequence < r.sequence := by simpa [Row.mark] using hw
  have hnone : before.filter (·.mark.isAhead r.mark) = [] := by
    rw [List.filter_eq_nil_iff]
    intro x hx
    have := hbefore x hx r (by simp)
    simp [Row.mark]; omega
  have hall : after.filter (·.mark.isAhead r.mark) = after := by
    rw [List.filter_eq_self]
    intro x hx
    simpa [Row.mark] using hafter x hx
  have hall' : after.filter (·.mark.isAhead w) = after := by
    rw [List.filter_eq_self]
    intro x hx
    have := hafter x hx
    simp [Row.mark]; omega
  rw [above, hl, List.filter_append, List.filter_cons_of_neg (by simp), hnone, hall,
    List.nil_append, ← ha, hall']

/-- Nothing is stored between a position and the first message above it. -/
theorem eq_of_mem_above_of_le {rest : List Row} {x : Row} (h : l.Sound) (hr : l.above w = r :: rest)
    (hx : x ∈ l.rows) (hw : w.sequence < x.sequence) (hle : x.sequence ≤ r.sequence) : x = r := by
  have hm : x ∈ l.above w := mem_above.2 ⟨hx, hw⟩
  rw [hr] at hm
  rcases List.mem_cons.1 hm with rfl | hm
  · rfl
  · rw [← above_first h hr] at hm
    have := (mem_above.1 hm).2
    simp [Row.mark] at this
    omega

/-- How far the messages of a list lead from a position. -/
def reach (w : Watermark) (seen : List Row) : Watermark := seen.getLast?.elim w Row.mark

/-- The messages of a list are the first above a position. -/
def Delivered (l : Ledger) (w : Watermark) (seen : List Row) : Prop :=
  seen ++ l.above (reach w seen) = l.above w

theorem delivered_nil : l.Delivered w [] := rfl

@[simp] theorem reach_nil : reach w [] = w := rfl

@[simp] theorem reach_snoc {seen : List Row} : reach w (seen ++ [r]) = r.mark := by
  simp [reach]

theorem delivered_snoc {seen rest : List Row} (h : l.Sound) (hd : l.Delivered w seen)
    (hr : l.above (reach w seen) = r :: rest) : l.Delivered w (seen ++ [r]) := by
  rw [Delivered, reach_snoc, above_first h hr, ← hd, hr, List.append_assoc]
  rfl

theorem above_grow {new : List Row} (hn : l'.rows = l.rows ++ new) :
    l'.above w = l.above w ++ new.filter (·.mark.isAhead w) := by
  rw [above, hn, List.filter_append]
  rfl

/-- New messages come behind everything that was delivered. -/
theorem delivered_grow {seen : List Row} (h : l'.Sound) (hp : l.rows <+: l'.rows)
    (hd : l.Delivered w seen) : l'.Delivered w seen := by
  obtain ⟨new, hn⟩ := hp
  rcases List.eq_nil_or_concat seen with rfl | ⟨init, r, rfl⟩
  · exact delivered_nil
  · rw [List.concat_eq_append] at hd ⊢
    have hm : r ∈ l.above w := by rw [← hd]; simp
    obtain ⟨hr, hw⟩ := mem_above.1 hm
    have hs := h.ascending
    rw [← hn, List.pairwise_append] at hs
    have hall : ∀ v : Watermark, v.sequence ≤ r.sequence → new.filter (·.mark.isAhead v) = new := by
      intro v hv
      rw [List.filter_eq_self]
      intro x hx
      have := hs.2.2 r hr x hx
      simp [Row.mark]; omega
    have hd' : (init ++ [r]) ++ l.above r.mark = l.above w := by simpa [Delivered] using hd
    rw [Delivered, reach_snoc, above_grow hn.symm, above_grow hn.symm, hall w (by omega),
      hall r.mark (by simp [Row.mark]), ← hd']
    simp

theorem delivered_prefix {seen : List Row} (h : l.Delivered w seen) : seen <+: l.above w :=
  ⟨_, h⟩

@[simp] theorem reach_cons {rows : List Row} : reach w (r :: rows) = reach r.mark rows := by
  rcases List.eq_nil_or_concat rows with rfl | ⟨init, x, rfl⟩
  · rfl
  · rw [List.concat_eq_append, ← List.cons_append, reach_snoc, reach_snoc]

theorem above_cons {rows : List Row} (h : l.Sound) (hp : r :: rows <+: l.above w) : rows <+: l.above r.mark := by
  obtain ⟨rest, hrest⟩ := hp
  rw [List.cons_append] at hrest
  exact ⟨rest, (above_first h hrest.symm).symm⟩

/-- What is taken from the front leaves the rest above where it ends. -/
theorem delivered_of_prefix {seen : List Row} (h : l.Sound) (hp : seen <+: l.above w) :
    l.Delivered w seen := by
  induction seen generalizing w with
  | nil => exact delivered_nil
  | cons r seen ih =>
    have hd := ih (above_cons h hp)
    obtain ⟨rest, hrest⟩ := hp
    rw [List.cons_append] at hrest
    rw [Delivered, reach_cons, List.cons_append, hd, above_first h hrest.symm, hrest]

theorem above_prefix (hp : l.rows <+: l'.rows) : l.above w <+: l'.above w := hp.filter _

theorem startFor_ge (h : l.Sound) (hr : r ∈ l.rows) : r.sequence ≤ (l.startFor false).sequence := by
  rcases List.eq_nil_or_concat l.rows with hn | ⟨init, x, hx⟩
  · simp [hn] at hr
  · rw [List.concat_eq_append] at hx
    have hs := h.ascending
    rw [hx, List.pairwise_append] at hs
    rw [hx] at hr
    rcases List.mem_append.1 hr with hr | hr
    · have := hs.2.2 r hr x (by simp)
      simp [startFor, hx]; omega
    · simp [startFor, hx, List.mem_singleton.1 hr]

end Ledger
end Repository
end DurableTopic

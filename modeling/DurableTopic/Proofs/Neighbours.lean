import DurableTopic.Proofs.Histories
/-! Destinations that share a repository. What is done for one leaves the others as they are, as long
as the backend keeps them apart. -/
namespace DurableTopic

namespace Repository

namespace Memory

variable {tx : Transaction} {committed : Topics} {d e : String} {c : Call}

theorem write_phase {α : Type} {f : Topic → α × Topic} :
    (tx.write committed e f).2.phase = tx.phase := by
  unfold Transaction.write
  split <;> rfl

theorem write_apart {α : Type} {f : Topic → α × Topic} (h : d ≠ e) :
    (tx.write committed e f).2.sees committed d = tx.sees committed d := by
  unfold Transaction.write
  split
  · simp [Transaction.sees, Transaction.view, topicOf, Assoc.find?_put, h]
  · rfl

/-- A transaction sees no change of a destination that a call is not about. -/
theorem perform_apart (h : d ≠ c.destination) :
    (tx.perform committed c).2.phase = tx.phase ∧
    (tx.perform committed c).2.sees committed d = tx.sees committed d := by
  cases c with
  | append | put => exact ⟨write_phase, write_apart h⟩
  | persist | delete =>
    simp only [Transaction.perform]
    split
    · exact ⟨write_phase, write_apart h⟩
    · exact ⟨rfl, rfl⟩
  | _ => exact ⟨rfl, rfl⟩

end Memory

namespace Embedded

variable {t t' : Tables} {c : Connection} {d e : String} {subscribers : List SubscriptionRow}

/-- The tables hold for a destination what they held. -/
structure Tables.Spares (d : String) (t t' : Tables) : Prop where
  messages : (t'.messages.getD []).filter (·.destination = Text.beforeNul d) =
    (t.messages.getD []).filter (·.destination = Text.beforeNul d)
  subscriptions : (t'.subscriptions.getD []).filter (·.destination = Text.beforeNul d) =
    (t.subscriptions.getD []).filter (·.destination = Text.beforeNul d)

theorem spares_refl : t.Spares d t := ⟨rfl, rfl⟩

theorem record_filter {k : SubscriberKey} (rows : List SubscriptionRow) :
    rows.find? (·.key = .of d k) =
      (rows.filter (·.destination = Text.beforeNul d)).find? (·.key = .of d k) := by
  rw [List.find?_filter]
  congr 1
  funext r
  by_cases hr : r.key = .of d k
  · have : r.destination = Text.beforeNul d := congrArg KeyColumns.destination hr
    simp [hr, this]
  · simp [hr]

theorem ledger_spared (h : t.Spares d t') : t'.ledger d = t.ledger d := by
  refine Ledger.ext h.messages (funext fun k => ?_)
  simp only [Tables.ledger]
  rw [record_filter, h.subscriptions, ← record_filter]

/-- Rows that stay in their destination, and stay as they are in this one. -/
theorem filter_map_spared {g : SubscriptionRow → SubscriptionRow}
    (hd : ∀ r, (g r).destination = r.destination)
    (hg : ∀ r : SubscriptionRow, r.destination = Text.beforeNul d → g r = r) :
    (subscribers.map g).filter (·.destination = Text.beforeNul d) =
      subscribers.filter (·.destination = Text.beforeNul d) := by
  induction subscribers with
  | nil => rfl
  | cons r rs ih =>
    by_cases hr : r.destination = Text.beforeNul d
    · simp [hr, hg r hr, ih]
    · simp [hd, hr, ih]

section

variable (he : Text.beforeNul d ≠ Text.beforeNul e)
include he

theorem key_apart {k : SubscriberKey} {r : SubscriptionRow} (hr : r.destination = Text.beforeNul d) :
    r.key ≠ .of e k := fun hk => he (hr.symm.trans (congrArg KeyColumns.destination hk))

theorem insertMessage_spares {rows : List Row} {r : Row} {n : Int} (hr : r.destination = e)
    (hm : t.messages = some rows) (h : t.insertMessage rows r = .ok (n, t')) : t.Spares d t' := by
  subst hr
  unfold Tables.insertMessage at h
  simp only at h
  split at h
  · cases h
  · split at h
    · cases h
    · cases h
      exact ⟨by simp [hm, Ne.symm he], rfl⟩

theorem updateAcked_spares {k : SubscriberKey} {w : Watermark} (hs : t.subscriptions = some subscribers)
    (h : t.updateAcked subscribers (.of e k) w = .ok ((), t')) : t.Spares d t' := by
  unfold Tables.updateAcked at h
  simp only at h
  split at h
  · cases h
  · cases h
    refine ⟨rfl, ?_⟩
    rw [hs, Option.getD_some, Option.getD_some]
    exact filter_map_spared (fun r => by split <;> rfl) fun r hr => by simp [key_apart he hr]

theorem upsert_spares {rows : List Row} {x : Subscription} {b : Bool} (hx : x.destination = e)
    (hs : t.subscriptions = some subscribers)
    (h : t.upsert subscribers rows x b = .ok ((), t')) : t.Spares d t' := by
  subst hx
  unfold Tables.upsert at h
  simp only at h
  split at h
  · cases h
  · cases h
  · cases h
    refine ⟨rfl, ?_⟩
    rw [hs, Option.getD_some, Option.getD_some]
    exact filter_map_spared (fun r => by split <;> rfl) fun r hr => by simp [key_apart he hr]
  · cases h
    refine ⟨rfl, ?_⟩
    have hne : (KeyColumns.of x.destination x.key).destination ≠ Text.beforeNul d := Ne.symm he
    simp [hs, hne]

theorem deleteSubscriber_spares {k : SubscriberKey} (hs : t.subscriptions = some subscribers)
    (h : t.deleteSubscriber subscribers (.of e k) = .ok ((), t')) : t.Spares d t' := by
  unfold Tables.deleteSubscriber at h
  split at h
  · cases h
  · cases h
    refine ⟨rfl, ?_⟩
    rw [hs, Option.getD_some, Option.getD_some, List.filter_filter]
    refine List.filter_congr fun r _ => ?_
    by_cases hr : r.destination = Text.beforeNul d
    · simp [hr, key_apart he hr]
    · simp [hr]

end

theorem write_spares {α : Type} {f : Tables → Except Status (α × Tables)}
    (h : ∀ a t', f c.tables = .ok (a, t') → c.tables.Spares d t') :
    c.tables.Spares d (c.write f).2.tables := by
  obtain ⟨-, ⟨a, -, hf⟩ | ⟨s, -, ht, -⟩⟩ := write_cases (c := c) (f := f)
  · exact h a _ hf
  · exact ht ▸ spares_refl

/-- A call leaves a destination that it is not about as it is. -/
theorem perform_spares {call : Call} (he : Text.beforeNul d ≠ Text.beforeNul call.destination) :
    c.tables.Spares d (perform c call).2.tables := by
  cases call with
  | append r =>
    simp only [perform]
    split
    · exact spares_refl
    · rename_i rows hm
      have hw := write_spares (d := d) (c := c) (f := (·.insertMessage rows r)) fun a t' h =>
        insertMessage_spares he rfl (readMessages_ok hm) h
      split <;> rename_i hc <;> rw [hc] at hw <;> exact hw
  | persist d' k w =>
    simp only [perform]
    split
    · exact spares_refl
    · rename_i rows hs
      exact write_spares fun _ _ h => updateAcked_spares he (readSubscriptions_ok hs) h
  | put x b =>
    unfold perform
    cases hs : c.tables.readSubscriptions with
    | error e => exact spares_refl
    | ok subscribers =>
      cases hm : c.tables.readMessages with
      | error e => exact spares_refl
      | ok rows => exact write_spares fun _ _ h => upsert_spares he rfl (readSubscriptions_ok hs) h
  | delete d' k =>
    simp only [perform]
    split
    · exact spares_refl
    · rename_i rows hs
      exact write_spares fun _ _ h => deleteSubscriber_spares he (readSubscriptions_ok hs) h
  | scanAfter =>
    simp only [perform]
    split <;> exact spares_refl
  | _ => exact spares_refl

end Embedded

variable {r : Repository} {d : String} {l : Ledger}

/-- A call about another destination changes nothing here. -/
theorem perform_aside {c : Call} (hs : r.Sound d) (ht : r.Tidy d) (hc : r.Sound c.destination)
    (hd : r.spell d ≠ r.spell c.destination) :
    (r.perform c).2.Sound d ∧ (r.perform c).2.Tidy d ∧
    (r.perform c).2.committed d = r.committed d ∧ (r.perform c).2.stand d = r.stand d := by
  cases r with
  | memory ts t =>
    cases t with
    | none => exact ⟨hs, ht, rfl, rfl⟩
    | some x =>
      obtain ⟨hp, hx⟩ : (x.perform ts c).2.phase = x.phase ∧
          (x.perform ts c).2.sees ts d = x.sees ts d := Memory.perform_apart hd
      have heq : ((memory ts (some x)).perform c).2 = memory ts (some (x.perform ts c).2) := rfl
      rw [heq]
      refine ⟨⟨hs.1, ?_⟩, ⟨ht.1, ?_⟩, rfl, by simp only [stand, hp, hx]⟩
      · rintro z ⟨⟩ hz
        rw [hx]
        exact hs.2 x rfl (hp ▸ hz)
      · rintro z ⟨⟩ hz
        rw [hx]
        exact ht.2 x rfl (hp ▸ hz)
  | embedded b t =>
    cases t with
    | none => exact ⟨hs, ht, rfl, rfl⟩
    | some x =>
      obtain ⟨hfree, ht, hsaved⟩ := ht
      obtain ⟨hfree', ht', -⟩ := Embedded.perform_yields c hfree ht hc.1
      have hspares : b.tables.Spares d (Embedded.perform b c).2.tables := Embedded.perform_spares hd
      have hl := Embedded.ledger_spared hspares
      have heq : ((embedded b (some x)).perform c).2 = embedded (Embedded.perform b c).2 (some x) := rfl
      rw [heq]
      obtain ⟨t', w, hk⟩ := Embedded.perform_kept b c
      rw [hk] at hfree' ht' hl ⊢
      simp only at hl
      refine ⟨⟨hl ▸ hs.1, hs.2⟩, ⟨hfree', ht', hsaved⟩, ?_, by simp only [stand, hl]⟩
      cases hb : b.saved with
      | none => simp only [committed, hb, Option.getD_none, hl]
      | some y => simp only [committed, hb, Option.getD_some]

/-- A repository holds this for a destination, and its transaction sees it so. -/
structure Keeps (d : String) (l : Ledger) (r : Repository) : Prop where
  sound : r.Sound d
  tidy : r.Tidy d
  committed : r.committed d = l
  sees : ∀ x, r.stand d = .active x → x = l

theorem keeps_begin (h : r.Keeps d l) (hn : r.hasTransaction = false) : r.begin.2.Keeps d l := by
  obtain ⟨hs, hc, -, hb⟩ := begin_spec h.sound hn
  refine ⟨hs, (begin_tidy h.tidy h.sound hn).2.1, hc.trans h.committed, fun x hx => ?_⟩
  rcases hb with ⟨f, -, hi⟩ | ⟨-, ha⟩
  · rw [hi] at hx
    cases hx
  · rw [ha] at hx
    cases hx
    exact h.committed

theorem keeps_perform {c : Call} (h : r.Keeps d l) (hs : r.Sound c.destination)
    (hd : r.spell d ≠ r.spell c.destination) : (r.perform c).2.Keeps d l := by
  obtain ⟨hsound, htidy, hcommitted, hstand⟩ := perform_aside h.sound h.tidy hs hd
  exact ⟨hsound, htidy, hcommitted.trans h.committed, fun x hx => h.sees x (hstand ▸ hx)⟩

/-- A transaction is active for all destinations at once. -/
theorem stand_active {e : String} {x : Ledger} (h : r.stand e = .active x) :
    ∃ y, r.stand d = .active y := by
  cases r with
  | memory ts t =>
    cases t with
    | none => cases h
    | some t =>
      by_cases hp : t.phase = .active
      · exact ⟨_, if_pos hp⟩
      · simp [stand, hp] at h
  | embedded c t =>
    cases t with
    | none => cases h
    | some t =>
      cases hf : t.finished with
      | true => simp [stand, hf] at h
      | false => exact ⟨c.tables.ledger d, by simp [stand, hf]⟩

theorem keeps_commit {e : String} {y : Ledger} (h : r.Keeps d l) (ha : r.stand e = .active y) :
    r.commit.2.Keeps d l := by
  obtain ⟨x, hx⟩ := stand_active (d := d) ha
  obtain ⟨hs, -, -, hc, hend⟩ := commit_spec h.sound hx
  refine ⟨hs, (commit_tidy h.tidy).1, hc.trans (h.sees x hx), fun z hz => ?_⟩
  rw [hend] at hz
  cases hz

theorem keeps_close (h : r.Keeps d l) : r.close.2.Keeps d l := by
  obtain ⟨hs, hc, -, hi⟩ := close_spec h.sound
  refine ⟨hs, (close_tidy h.tidy).1, hc.trans h.committed, fun z hz => ?_⟩
  rw [hi] at hz
  cases hz

namespace Faulty

variable {b : Faulty}

/-- A fault keeps a transaction from being started, or it is started. -/
theorem begin_made : b.begin.2.repository = b.repository ∨
    b.begin.2.repository = b.repository.begin.2 := by
  have hsame : (b.noting .begin "begin").2.repository = b.repository := rfl
  unfold begin
  generalize b.noting .begin "begin" = q at hsame
  obtain ⟨f, b'⟩ := q
  split
  · rename_i heq
    cases heq
    exact Or.inl hsame
  · rename_i heq
    cases heq
    simp only at hsame ⊢
    rw [hsame]
    exact Or.inr rfl

end Faulty

end Repository
namespace Store

open Repository (Ledger)

variable {s s' : System} {d : String} {l : Ledger} {ev : Event} {tr : List Event}

/-- What a store does for its destination leaves the others as they are. -/
theorem keeps_step (hs : s.Sound) (h : Step s ev s')
    (hd : s.host.spell d ≠ s.host.spell s.host.destination)
    (hk : s.host.backend.repository.Keeps d l) : s'.host.backend.repository.Keeps d l := by
  cases h with
  | start | finish | disturb => exact hk
  | @ask t n r past e next below a h' hst hr =>
    have hf := hs.frames t _ (by rw [hst]; exact List.mem_cons_self)
    have hperm := hf.follows.1
    have hb := replies_affects hr
    change h'.backend.repository.Keeps d l
    generalize h'.backend = b' at hb ⊢
    cases hb with
    | begin hn =>
      rcases Repository.Faulty.begin_made (b := s.host.backend) with hb | hb
      · exact hb ▸ hk
      · exact hb ▸ Repository.keeps_begin hk hn
    | call c =>
      have hcd := Request.mayCall_destination hperm.2.1
      rcases Repository.Faulty.perform_made (c := c) hs.backend.faults with hb | hb
      · exact hb ▸ hk
      · exact hb ▸ Repository.keeps_perform hk (hcd ▸ hs.backend.repository) (hcd ▸ hd)
    | commit =>
      obtain ⟨x, hx, -⟩ := hf.active hperm.1
      exact Repository.keeps_commit hk hx
    | commitFails f => exact hk
    | close => exact Repository.keeps_close hk
    | other => exact hk

theorem keeps_run (hs : s.Sound) (h : Run Step s tr s')
    (hd : s.host.spell d ≠ s.host.spell s.host.destination)
    (hk : s.host.backend.repository.Keeps d l) : s'.host.backend.repository.Keeps d l := by
  induction h with
  | nil => exact hk
  | snoc h he ih =>
    refine keeps_step (sound_run hs h) he ?_ ih
    rw [spell_run hs h, destination_run hs h]
    exact hd

end Store
end DurableTopic

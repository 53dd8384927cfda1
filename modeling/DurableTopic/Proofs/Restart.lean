import DurableTopic.Proofs.Backends
import DurableTopic.Proofs.Discipline
import DurableTopic.Proofs.Play
import DurableTopic.Proofs.Reopening
import DurableTopic.Proofs.Twins
/-! Restarts. When all calls are done, everything that matters is in the file: a new store over the
path that is opened again goes on like the old one after all of its cursors are reset. -/
namespace DurableTopic
namespace Cursor.Cache

variable {c d : Cache} {k : SubscriberKey} {t : Thread} {a : Answer}

/-- A slot that nobody holds is new once it is reset. -/
theorem forgotten_slotOf (h : c.Sound) (hfree : ∀ i, (c.slot i).holder = none) :
    (c.slotOf k).forgotten = {} := by
  cases hm : c.mapped.find? k with
  | none =>
    rw [slotOf_none hm]
    rfl
  | some i =>
    rw [slotOf_some hm]
    have hfresh := h.fresh k i hm
    have hquiet := h.quiet i (hfree i)
    have hholder := hfree i
    generalize c.slot i = s at hfresh hquiet hholder
    obtain ⟨watermark, retired, holder, pendingReset, pendingEvict⟩ := s
    simp only at hfresh hquiet hholder
    simp [Slot.forgotten, hfresh.1, hquiet.1, hquiet.2, hholder]

theorem holder_reset (h : c.Sound) (hfree : ∀ i, (c.slot i).holder = none)
    (hc : c.call t (.reset k) = some (a, d)) : ∀ i, (d.slot i).holder = none := by
  obtain ⟨-, -, hslot⟩ := reset_spec (h.inside k) hc
  intro i
  rw [hslot]
  split
  · unfold Slot.forgotten
    split <;> exact hfree i
  · exact hfree i

end Cursor.Cache
namespace Store

open Cursor (Thread Cache)

/-- Resets the cursor of a subscriber, by a call of a thread. There is no result if the call waits. -/
def Host.resetCursor (t : Thread) (h : Host) (k : SubscriberKey) : Option Host :=
  match (resetBatching k).run.proceed t h with
  | .ended (.ok ()) h => some h
  | _ => none

/-- A new store over a repository, in place of an old one. -/
def Host.over (h : Host) (r : Repository) : Host := { h with backend.repository := r, cursors := {} }

/-- A host that differs from another one only in its cursors and its log, and of which no thread holds
a slot. -/
structure Host.Idles (h g : Host) : Prop where
  destination : g.destination = h.destination
  backend : g.backend = h.backend
  telemetry : g.telemetry = h.telemetry
  cursors : g.cursors.Sound
  free : ∀ i, (g.cursors.slot i).holder = none

section

variable {h g : Host} {t : Thread} {k : SubscriberKey}

/-- A reset waits for nobody, and forgets the cursor of its subscriber alone. -/
theorem reset_idles (hg : h.Idles g) : ∃ g', g.resetCursor t k = some g' ∧ h.Idles g' ∧
    ∀ j, g'.cursors.slotOf j = if j = k then {} else g.cursors.slotOf j := by
  have hfree : (g.cursors.slotOf k).holder = none := by
    cases hm : g.cursors.mapped.find? k with
    | none => rw [Cache.slotOf_none hm]
    | some i => rw [Cache.slotOf_some hm, hg.free]
  have hcall : (g.cursors.call t (.reset k)).isSome :=
    (Cache.visit_isSome (Or.inl rfl)).2 fun u hu => by rw [hfree] at hu; cases hu
  obtain ⟨⟨a, c⟩, hc⟩ := Option.isSome_iff_exists.1 hcall
  have ha : g.answer t (.reset k) = some ((), { g with cursors := c }) := by
    simp [Host.answer, Host.onCursors, hc]
  have hreset : g.resetCursor t k =
      some ({ g with cursors := c }.log [⟨.trace, "cursor reset", [.subscriber k]⟩]) := by
    have hp : (resetBatching k).run.proceed t g = .ended (.ok ())
        ({ g with cursors := c }.log [⟨.trace, "cursor reset", [.subscriber k]⟩]) :=
      proceed_some rfl ha
    rw [Host.resetCursor, hp]
  refine ⟨_, hreset, ⟨hg.destination, hg.backend, hg.telemetry, Cache.sound_reset hg.cursors hc,
    Cache.holder_reset hg.cursors hg.free hc⟩, fun j => ?_⟩
  change c.slotOf j = _
  rw [Cache.slotOf_reset hg.cursors hc, Cache.forgotten_slotOf hg.cursors hg.free]

/-- Resets of several cursors forget these, and leave a slot new that is. -/
theorem resets_idle (ks : List SubscriberKey) (hg : h.Idles g) :
    ∃ g', ks.foldlM (Host.resetCursor t) g = some g' ∧ h.Idles g' ∧
      ∀ j, j ∈ ks ∨ g.cursors.slotOf j = {} → g'.cursors.slotOf j = {} := by
  induction ks generalizing g with
  | nil => exact ⟨g, rfl, hg, fun j hj => hj.resolve_left (by simp)⟩
  | cons k ks ih =>
    obtain ⟨g₁, hk, hg₁, hslot⟩ := reset_idles (t := t) (k := k) hg
    obtain ⟨g', hks, hg', hblank⟩ := ih hg₁
    refine ⟨g', by simp [List.foldlM_cons, hk, hks], hg', fun j hj => hblank j ?_⟩
    rcases hj with hj | hj
    · rcases List.mem_cons.1 hj with rfl | hj
      · exact Or.inr (by rw [hslot, if_pos rfl])
      · exact Or.inl hj
    · refine Or.inr ?_
      rw [hslot, hj]
      split <;> rfl

/-- Only the cursors tell a store from a new one over the same repository. -/
theorem over_twins (hg : h.Idles g) (hblank : ∀ k, g.cursors.slotOf k = {}) :
    (h.over h.backend.repository).Twins (fun _ _ => False) g where
  destination := hg.destination.symm
  backend := hg.backend.symm
  telemetry := hg.telemetry.symm
  cursors := Cache.alike_blank hg.cursors fun k _ => hblank k

end

section

variable {t : Thread} {h h' : Host} {e : Effect} {a : e.Reply} {s s₀ : System} {tr : List Event}
  {c₀ : Repository.Embedded.Connection}

theorem replies_moves (hr : Replies t h e a h') :
    h.backend.repository.Moves h'.backend.repository := by
  have ht := replies_affects hr
  generalize h.backend = b, h'.backend = b' at ht ⊢
  cases ht with
  | begin hn => exact Repository.Faulty.begin_moves
  | call c => exact Repository.Faulty.perform_moves
  | commit => exact .commit
  | commitFails f => exact .same
  | close => exact .close
  | other => exact .same

theorem serves_run (h : s₀.host.backend.repository.Serves c₀) (hr : Run Step s₀ tr s) :
    s.host.backend.repository.Serves c₀ := by
  induction hr with
  | nil => exact h
  | snoc _ he ih =>
    cases he with
    | ask _ hr => exact Repository.serves_moves ih (replies_moves hr)
    | _ => exact ih

/-- When all calls are done, no transaction is open. -/
theorem unlocked_run (h : s₀.Opened) (hr : Run Step s₀ tr s) (hdone : ∀ t, s.stack t = []) :
    s.host.isLocked = false := by
  obtain ⟨s', hr', -, rfl⟩ := Concurrent.run_atomic h hr
  refine Bool.eq_false_iff.2 fun hl => ?_
  obtain ⟨t, f, hf, -⟩ := (Concurrent.disciplined_run h hr').opened hl
  rw [hdone t] at hf
  cases hf

/-- When all calls are done, the repository is a connection on which nothing is open. -/
theorem connected_run (h : s₀.Opened) (hc : s₀.host.backend.repository.Serves c₀)
    (hr : Run Step s₀ tr s) (hdone : ∀ t, s.stack t = []) :
    ∃ c, s.host.backend.repository = .embedded c none ∧ c₀.Serves c ∧ c.saved = none := by
  have hs := serves_run hc hr
  have hlock := unlocked_run h hr hdone
  have hsound := (sound_run (sound_opened h) hr).backend.repository
  unfold Host.isLocked at hlock
  cases hb : s.host.backend.repository with
  | memory ts x =>
    rw [hb] at hs
    exact hs.elim
  | embedded c x =>
    rw [hb] at hs hlock hsound
    obtain rfl : x = none := by simpa [Repository.hasTransaction] using hlock
    exact ⟨c, rfl, hs, by simpa using hsound.2.2⟩

theorem idles_run (h : s₀.Opened) (hr : Run Step s₀ tr s) (hdone : ∀ t, s.stack t = []) :
    s.host.Idles s.host := by
  have hs := sound_run (sound_opened h) hr
  refine ⟨rfl, rfl, rfl, hs.cursors, fun i => ?_⟩
  cases hi : (s.host.cursors.slot i).holder with
  | none => rfl
  | some u =>
    obtain ⟨f, hf, -⟩ := hs.held u i hi
    rw [hdone u] at hf
    cases hf

/-- A restart is the same as a reset of every cursor. Calls were made, by any threads, on a store over
a database in a file, and all are done. Its path can be opened again, which makes the tables that are
missing and finds the repository as it was. However someone goes on with a new store over it, the same
is heard, to the letter, as from the old store after the cursors of all subscribers that have one are
reset. -/
theorem restart_is_reset {v w : Repository.Embedded.Volume} {path : String} {wal : Option Bool}
    {ms : UInt32} {e : Log.Entry} {again : Repository × Log.Entry} {ks : List SubscriberKey}
    (hopen : Repository.connect v (.sqlite path wal ms) = (.ok (.embedded c₀ none, e), w))
    (hfile : c₀.shared) (hagain : (Repository.connect w (.sqlite path wal ms)).1 = .ok again)
    (h₀ : s₀.Opened) (hc₀ : s₀.host.backend.repository = .embedded c₀ none)
    (hr : Run Step s₀ tr s) (hdone : ∀ t, s.stack t = [])
    (hks : ∀ k i, s.host.cursors.mapped.find? k = some i → k ∈ ks) (t : Thread) :
    ∃ r h', Repository.connect (Repository.closed w s.host.backend.repository)
        (.sqlite path wal ms) = (.ok (r, e), Repository.closed w s.host.backend.repository) ∧
      ks.foldlM (Host.resetCursor t) s.host = some h' ∧
      ∀ u σ n, Dialogue.sights σ n [] ⟨u, s.host.over r, []⟩ = Dialogue.sights σ n [] ⟨u, h', []⟩ := by
  have hserves : s₀.host.backend.repository.Serves c₀ := by
    rw [hc₀]
    exact Repository.serves_connect hopen hfile
  obtain ⟨c, hc, hsame, hsaved⟩ := connected_run h₀ hserves hr hdone
  obtain ⟨h', hfold, hidles, hblank⟩ := resets_idle (t := t) ks (idles_run h₀ hr hdone)
  refine ⟨s.host.backend.repository, h', ?_, hfold, fun u σ n => Dialogue.sights_twins ⟨rfl, _,
    over_twins hidles fun k => hblank k ?_, .nil⟩⟩
  · rw [hc]
    exact Repository.connect_closed hopen hfile hagain hsame hsaved
  · cases hm : s.host.cursors.mapped.find? k with
    | none => exact Or.inr (Cache.slotOf_none hm)
    | some i => exact Or.inl (hks k i hm)

end

/-- The files after a database is made in one of them, and a store over it. -/
def ordersFile : Repository.Embedded.Path := [Text.utf8 "orders.db"]

def ordersVolume : Repository.Embedded.Volume :=
  { files := (∅ : Assoc _ _).put ordersFile (.database Repository.Embedded.Volume.noTables) }

def overOrders : System := { host := newHost "orders" (.onDatabase (some ordersFile)) }

/-- What is said when it is opened. -/
def ordersReady : Log.Entry := Repository.readyEntry "sqlite" [.text "path" "/orders.db"]

/-- A subscriber accepts a message, and does not acknowledge it. -/
def firstAccepted : List Choice :=
  [.call "main" (.publish (System.note "orders" "m1")),
    .call "main" (.subscribe { destination := "orders", key := replayed } true),
    .call "main" replaying, .hear "main" (.ok true), .hear "main" (.ok true)]

theorem restart_after_first :
    let s := (overOrders.play firstAccepted).2
    let reopened := Repository.connect (Repository.closed ordersVolume s.host.backend.repository)
      (.sqlite "/orders.db" none 0)
    (s.host.cursors.slotOf replayed).watermark = some ⟨1, 0⟩ ∧
    ∃ r e h', reopened.1 = .ok (r, e) ∧ s.host.resetCursor "main" replayed = some h' ∧
      ∀ σ n, Dialogue.sights σ n [] { host := s.host.over r } =
        Dialogue.sights σ n [] { host := h' } := by
  have hopen : Repository.connect {} (.sqlite "/orders.db" none 0) =
      (.ok (.onDatabase (some ordersFile), ordersReady), ordersVolume) := by rfl
  have hagain : (Repository.connect ordersVolume (.sqlite "/orders.db" none 0)).1 =
      .ok (.onDatabase (some ordersFile), ordersReady) := by rfl
  have ho : overOrders.Opened := ⟨calm_onDatabase.sound, rfl, rfl, fun _ => rfl⟩
  have hr : Run Step overOrders _ _ := System.play_run firstAccepted
  have halone := (serial_run (t := "main") hr (fun _ _ => rfl) (by decide +kernel)).2
  have hmain : ((overOrders.play firstAccepted).2.stack "main").isEmpty := by decide +kernel
  have hdone : ∀ t, (overOrders.play firstAccepted).2.stack t = [] := by
    intro t
    by_cases ht : t = "main"
    · exact ht ▸ List.isEmpty_iff.1 hmain
    · exact halone t ht
  have hmapped : (overOrders.play firstAccepted).2.host.cursors.mapped =
      (∅ : Assoc _ _).put replayed 0 := by decide +kernel
  have hks : ∀ k i, (overOrders.play firstAccepted).2.host.cursors.mapped.find? k = some i →
      k ∈ [replayed] := by
    intro k i hk
    rw [hmapped, Assoc.find?_put] at hk
    split at hk
    · simp [*]
    · cases hk
  obtain ⟨r, h', hc, hreset, hsights⟩ :=
    restart_is_reset hopen rfl hagain ho rfl hr hdone hks "main"
  refine ⟨by decide +kernel, r, ordersReady, h', congrArg Prod.fst hc, ?_, fun σ n => hsights _ σ n⟩
  simpa [List.foldlM_cons] using hreset

end Store
end DurableTopic

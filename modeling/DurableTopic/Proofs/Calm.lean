import DurableTopic.Proofs.Histories
/-! A host that nothing hinders. It answers every request exactly, in the way of its backend. -/
namespace DurableTopic

namespace Repository

/-- Every record is kept under the key that it names, and keys that are kept as one share a record. -/
structure Ledger.Keyed (spell : String → String) (l : Ledger) : Prop where
  own : ∀ k x, l.record k = some x → x.key = k.spelled spell
  same : ∀ j k, j.spelled spell = k.spelled spell → l.record j = l.record k

variable {d : String} {l : Ledger}

theorem Memory.ledger_keyed {t : Memory.Topic} (h : t.Tidy) : t.ledger.Keyed id where
  own k x hx := by rw [SubscriberKey.spelled_id]; exact key_of_get h hx
  same j k hjk := by simp only [SubscriberKey.spelled_id] at hjk; rw [hjk]

theorem Embedded.ledger_keyed {t : Embedded.Tables} : (t.ledger d).Keyed Text.beforeNul where
  own k x hx := by
    obtain ⟨r, hr, rfl⟩ := Option.map_eq_some_iff.1 hx
    exact record_key (by simpa using List.find?_some hr)
  same j k hjk := by simp only [Tables.ledger, columns_eq_iff.2 hjk]

theorem keyed_of_active {r : Repository} (h : r.Tidy d) (ha : r.stand d = .active l) :
    l.Keyed r.spell := by
  cases r with
  | memory ts t =>
    cases t with
    | none => cases ha
    | some x =>
      simp only [stand] at ha
      split at ha
      · cases ha
        exact Memory.ledger_keyed (h.2 x rfl ‹_›)
      · cases ha
  | embedded c t =>
    cases t with
    | none => cases ha
    | some x =>
      simp only [stand] at ha
      split at ha
      · cases ha
      · cases ha
        exact Embedded.ledger_keyed

theorem committed_keyed {r : Repository} (h : r.Tidy d) : (r.committed d).Keyed r.spell := by
  cases r with
  | memory => exact Memory.ledger_keyed h.1
  | embedded => exact Embedded.ledger_keyed

end Repository
namespace Store

open Cursor (Thread)
open Repository (Call Ledger)

/-- How a backend keeps the messages and the subscribers of a destination. -/
structure Keeping where
  destination : String
  spell : String → String
  first : Nat → List Row → List Row

namespace Host

/-- What a host sees: what is committed, or within a transaction what became of it. -/
def Sees (h : Host) (base l : Ledger) : Phase → Prop
  | .closed => h.backend.repository.hasTransaction = false ∧ l = base
  | .active => h.stand = .active l
  | .ended => h.stand = .ended ∧ l = base

/-- A host without faults on a repository that is in order, by what is committed and what it sees. -/
structure Calm (κ : Keeping) (p : Phase) (base l : Ledger) (h : Host) : Prop where
  destination : h.destination = κ.destination
  spell : h.spell = κ.spell
  first : h.backend.repository.first = κ.first
  faults : h.backend.faults = {}
  sound : h.backend.Sound h.destination
  tidy : h.backend.repository.Tidy h.destination
  ledger : h.ledger = base
  sees : h.Sees base l p

variable {h h' : Host} {κ : Keeping} {p : Phase} {base l : Ledger}

theorem calm_of_backend (hc : h.Calm κ p base l) (hb : h'.backend = h.backend)
    (hd : h'.destination = h.destination) : h'.Calm κ p base l := by
  obtain ⟨hd', hsp, hf, hfaults, hs, ht, hl, hsees⟩ := hc
  obtain ⟨hl', hst⟩ := ledger_of_backend hb hd
  refine ⟨hd.trans hd', ?_, hb ▸ hf, hb ▸ hfaults, ?_, ?_, hl'.trans hl, ?_⟩
  · rw [spell, hb]
    exact hsp
  · rw [hb, hd]
    exact hs
  · rw [hb, hd]
    exact ht
  · cases p with
    | closed => exact ⟨hb ▸ hsees.1, hsees.2⟩
    | active => exact hst.trans hsees
    | ended => exact ⟨hst.trans hsees.1, hsees.2⟩

theorem calm_begin (hc : h.Calm κ .closed base l) :
    h.begin.1 = .ok () ∧ h.begin.2.cursors = h.cursors ∧ h.begin.2.Calm κ .active base l := by
  obtain ⟨hd, hsp, hf, hfaults, hs, ht, hl, hn, rfl⟩ := hc
  obtain ⟨hok, -, -⟩ := Repository.begin_tidy ht hs.repository hn
  obtain ⟨hsame, -, hfaults'⟩ := Repository.Faulty.begin_calm hfaults
  obtain ⟨hs', hk, hsp', hres⟩ := Repository.Faulty.begin_spec hs hn (stand_idle hn)
  obtain ⟨ht', hf'⟩ := Repository.Faulty.begin_tidied hs ht hn
  refine ⟨hsame.trans hok, rfl, hd, hsp'.trans hsp, hf'.trans hf, hfaults', hs', ht', hk.trans hl, ?_⟩
  rcases hres with ⟨f, hf, -⟩ | ⟨-, hact⟩
  · rw [hsame.trans hok] at hf
    cases hf
  · exact hl ▸ hact

theorem calm_call {c : Call} (hc : h.Calm κ .active base l) (hcd : c.destination = κ.destination)
    (hn : c.Named) : (h.perform c).2.cursors = h.cursors ∧ l.Keyed κ.spell ∧
    ∃ l', (h.perform c).2.Calm κ .active base l' ∧
      l.Yields κ.spell κ.first c (h.perform c).1 l' := by
  obtain ⟨hd, hsp, hf, hfaults, hs, ht, hl, hact⟩ := hc
  have hcd : c.destination = h.destination := hcd.trans hd.symm
  obtain ⟨ha, hrep, hfaults'⟩ := Repository.Faulty.perform_calm (c := c) hfaults
  obtain ⟨hs', hk, hsp', -⟩ := Repository.Faulty.perform_answered (c := c) hs hact hcd
  obtain ⟨ht', hf', l', hact', hy⟩ := Repository.perform_yields (c := c) ht hs.repository hact hcd hn
  refine ⟨rfl, hsp ▸ Repository.keyed_of_active ht hact, l',
    ⟨hd, hsp'.trans hsp, ?_, hfaults', hs', ?_, hk.trans hl, ?_⟩, ?_⟩
  · exact (congrArg _ hrep).trans (hf'.trans hf)
  · exact hrep ▸ ht'
  · exact (congrArg _ hrep).trans hact'
  · rw [← hsp, ← hf]
    exact ha ▸ hy

theorem calm_commit (hc : h.Calm κ .active base l) :
    h.commit.1 = .ok () ∧ h.commit.2.cursors = h.cursors ∧ h.commit.2.Calm κ .ended l l := by
  obtain ⟨hd, hsp, hf, hfaults, hs, ht, hl, hact⟩ := hc
  obtain ⟨hs', hsp', hok, hk, hend⟩ := Repository.Faulty.commit_spec hs hact
  obtain ⟨ht', hf'⟩ := Repository.commit_tidy ht
  exact ⟨hok, rfl, hd, hsp'.trans hsp, hf'.trans hf, hfaults, hs', ht', hk, hend, rfl⟩

theorem calm_close (hc : h.Calm κ p base l) :
    h.close.cursors = h.cursors ∧ h.close.Calm κ .closed base base := by
  obtain ⟨hd, hsp, hf, hfaults, hs, ht, hl, -⟩ := hc
  obtain ⟨hs', hk, hsp', -⟩ := Repository.Faulty.close_spec hs
  obtain ⟨ht', hf'⟩ := Repository.close_tidy ht
  exact ⟨rfl, hd, hsp'.trans hsp, hf'.trans hf, hfaults, hs', ht', hk.trans hl,
    Repository.hasTransaction_close, rfl⟩

theorem answer_told {t : Thread} {e : Effect} (he : e.isTold) : ∃ a h', h.answer t e = some (a, h') ∧
    h'.backend = h.backend ∧ h'.cursors = h.cursors ∧ h'.destination = h.destination := by
  cases e <;> first | exact ⟨_, _, rfl, rfl, rfl, rfl⟩ | cases he

end Host
end Store
end DurableTopic

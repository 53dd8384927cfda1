import DurableTopic.Proofs.Reopening
import DurableTopic.Proofs.Settings
import Mathlib.Algebra.Group.Int.Defs
import Mathlib.Algebra.Group.Nat.Defs
import Mathlib.Logic.Relation
/-! How long an embedded database waits for a lock that someone else holds. A configuration names the
time as an unsigned word and the database takes it as a signed one, so that the longer half of all
times turns into none. -/
namespace DurableTopic

namespace Repository
namespace Embedded

/-- For how many milliseconds a connection waits. -/
def Connection.patience (c : Connection) : Nat := c.busyTimeout.toInt.toNat

/-- The same connection, if it had been opened with another time to wait. -/
def Connection.timed (ms : UInt32) (c : Connection) : Connection :=
  { c with busyTimeout := busyTimeoutWord ms }

theorem busyTimeoutWord_toInt (ms : UInt32) :
    (busyTimeoutWord ms).toInt = Int.bmod ms.toNat (2 ^ 32) := by
  rw [busyTimeoutWord, Int32.toInt, UInt32.toBitVec_toInt32, BitVec.toInt_eq_toNat_bmod,
    UInt32.toNat_toBitVec]

namespace Volume

variable {v : Volume} {a : Address} {p : Path} {wal : Bool} {ms : UInt32} {address : String}

/-- Whether a database can be opened does not depend on how long it would wait for locks. -/
theorem openAt_timed (ms : UInt32) : v.openAt a p wal ms =
    ((v.openAt a p wal 0).1.map (·.timed ms), (v.openAt a p wal 0).2) := by
  unfold openAt
  cases a.model.any (!v.contains ·) with
  | true => rfl
  | false =>
    cases mayWrite a p <;> cases wal && a.lacksIndex <;>
      simp only [Bool.false_eq_true, if_false, if_true] <;>
      split <;> first | rfl | (split <;> first | rfl | (split <;> rfl))

theorem connect_timed (ms : UInt32) : v.connect address wal ms =
    ((v.connect address wal 0).1.map (·.timed ms), (v.connect address wal 0).2) := by
  unfold connect
  cases Address.read address with
  | error e => rfl
  | ok a =>
    dsimp only
    split
    · split <;> rfl
    split
    · split
      · rfl
      · split <;> rfl
    cases v.resolve a.path with
    | none => rfl
    | some p => exact openAt_timed ms

end Volume

variable {c : Connection}

theorem begin_busyTimeout : (begin c).2.busyTimeout = c.busyTimeout := by
  simp only [begin, Connection.begin, if_true]
  split
  · rfl
  · split <;> rfl

theorem perform_busyTimeout {call : Call} : (perform c call).2.busyTimeout = c.busyTimeout := by
  obtain ⟨t, w, hp⟩ := perform_kept c call
  rw [hp]

theorem commit_busyTimeout {x : Handle} : (commit x c).2.2.busyTimeout = c.busyTimeout := by
  unfold commit Connection.commit
  cases c.saved.isSome <;> rfl

theorem close_busyTimeout {x : Handle} : (close x c).2.busyTimeout = c.busyTimeout := by
  unfold close Connection.rollback
  cases x.finished with
  | true => rfl
  | false => cases c.saved <;> rfl

end Embedded

/-- A repository whose connection waits for locks as long as a word says. -/
def Waits (ms : Int32) : Repository → Prop
  | memory .. => False
  | embedded c _ => c.busyTimeout = ms

/-- How many milliseconds a configuration asks for. -/
def askedTimeout (ms : UInt32) : UInt32 := Config.orElse ms Config.defaultBusyTimeoutMs

variable {r r' : Repository} {v w : Embedded.Volume} {word : Int32} {ms ms₀ : UInt32} {path : String}
  {wal : Option Bool} {entry : Log.Entry} {s s' : Config.Settings}

/-- Nothing that is asked of a repository changes how long it waits. -/
theorem waits_moves (h : r.Waits word) (hr : r.Moves r') : r'.Waits word := by
  cases r with
  | memory => exact h.elim
  | embedded c t =>
    cases hr with
    | same => exact h
    | begin =>
      have hb : (Embedded.begin c).2.busyTimeout = word := Embedded.begin_busyTimeout.trans h
      simp only [begin]
      split <;> rename_i heq <;> rw [heq] at hb <;> exact hb
    | perform call =>
      cases t with
      | none => exact h
      | some x => exact Embedded.perform_busyTimeout.trans h
    | commit =>
      cases t with
      | none => exact h
      | some x => exact Embedded.commit_busyTimeout.trans h
    | close =>
      cases t with
      | none => exact h
      | some x => exact Embedded.close_busyTimeout.trans h

theorem waits_run (h : r.Waits word) (hr : Relation.ReflTransGen Moves r r') : r'.Waits word := by
  induction hr with
  | refl => exact h
  | tail _ hm ih => exact waits_moves ih hm

theorem askedTimeout_pos (ms : UInt32) : 0 < (askedTimeout ms).toNat := by
  unfold askedTimeout Config.orElse
  split
  · decide
  · rename_i h
    exact Nat.pos_of_ne_zero fun h0 => h (UInt32.toNat_inj.1 h0)

theorem askedTimeout_asked (ms : UInt32) : askedTimeout (askedTimeout ms) = askedTimeout ms :=
  if_neg fun h => absurd (askedTimeout_pos ms) (by rw [h]; decide)

/-- A configuration with an embedded database that waits some time. -/
def onFile (s : Config.Settings) (path : String) (wal : Option Bool) (ms : UInt32) :
    Config.Settings := { s with database := some (.sqlite path wal ms) }

/-- Whether a configuration is accepted does not depend on the time, and that is all of it that is
filled in for the database. -/
theorem filled_onFile (h : (onFile s path wal ms₀).filled = .ok s') (ms : UInt32) :
    (onFile s path wal ms).filled = .ok (onFile s' path wal (askedTimeout ms)) := by
  obtain ⟨hd, d, hf, rfl⟩ := Config.settings_filled.1 h
  obtain ⟨hp, -⟩ := Config.sqlite_filled.1 hf
  exact Config.settings_filled.2 ⟨hd, _, Config.sqlite_filled.2 ⟨hp, rfl⟩, rfl⟩

/-- What is opened differs by nothing but the time that was asked for. -/
theorem connect_sqlite : connect v (.sqlite path wal ms) =
    match v.connect path (wal.getD true) 0 with
    | (.ok c, w) =>
      (.ok (.embedded (c.timed (askedTimeout ms)) none, readyEntry "sqlite" [.text "path" path]), w)
    | (.error e, w) => (.error (.runtime e), w) := by
  rw [connect, Embedded.Volume.connect_timed]
  rcases v.connect path (wal.getD true) 0 with ⟨_ | c, w⟩ <;> rfl

/-- A repository opens with every time to wait, if it does with one. -/
theorem connect_onFile (h : connect v (.sqlite path wal ms₀) = (.ok (r, entry), w)) (ms : UInt32) :
    ∃ r, connect v (.sqlite path wal ms) = (.ok (r, entry), w) ∧
      r.Waits (Embedded.busyTimeoutWord (askedTimeout ms)) := by
  rw [connect_sqlite] at h ⊢
  rcases hc : v.connect path (wal.getD true) 0 with ⟨_ | c, w'⟩
  · rw [hc] at h
    cases h
  · rw [hc] at h
    cases h
    exact ⟨_, rfl, rfl⟩

/-- A time that is less than half of all words is kept; a longer one becomes negative. -/
theorem busyTimeoutWord_cases (ms : UInt32) : (Embedded.busyTimeoutWord ms).toInt =
    if ms.toNat < 2 ^ 31 then (ms.toNat : Int) else ms.toNat - 2 ^ 32 := by
  have := ms.toNat_lt
  rw [Embedded.busyTimeoutWord_toInt, Int.bmod]
  split <;> split <;> omega

/-- A topic with a database of its own, for which the given time is asked. -/
def ownDatabase (ms : UInt32) : Config.Settings :=
  onFile { store := { destination := "orders" } } ":memory:" none ms

/-- The connection that comes of `ownDatabase`. -/
def ownConnection (ms : UInt32) : Embedded.Connection :=
  { busyTimeout := Embedded.busyTimeoutWord (askedTimeout ms) }

theorem ownDatabase_filled : (ownDatabase 0).filled =
    .ok { ownDatabase 5000 with store := { destination := "orders", defaultBatchSize := 100 } } := rfl

theorem ownConnection_opened (ms : UInt32) : connect {} (.sqlite ":memory:" none ms) =
    (.ok (.embedded (ownConnection ms) none, readyEntry "sqlite" [.text "path" ":memory:"]), {}) := by
  rw [connect_sqlite, Option.getD_none, show ({} : Embedded.Volume).connect ":memory:" true 0 =
    (.ok { busyTimeout := Embedded.busyTimeoutWord 0 }, {}) from rfl]
  rfl

/-- A configuration with an embedded database that gives a connection. -/
def Gives (s : Config.Settings) (c : Embedded.Connection) : Prop :=
  ∃ s' entry w, s.filled = .ok s' ∧
    connect {} (s'.database.getD .memory) = (.ok (.embedded c none, entry), w)

theorem ownDatabase_gives (ms : UInt32) : Gives (ownDatabase ms) (ownConnection ms) := by
  have ho := ownConnection_opened (askedTimeout ms)
  rw [ownConnection, askedTimeout_asked] at ho
  exact ⟨_, _, _, filled_onFile ownDatabase_filled ms, ho⟩

/-- A configuration that is accepted, and whose database can be opened, may ask for any time to wait
for locks. Through every run of the repository that it gives, that time is in force exactly if it is
less than half of all words. A longer one has become negative, and then nothing is waited for. -/
theorem busy_timeout_in_force (hs : (onFile s path wal ms₀).filled = .ok s')
    (ho : connect v (s'.database.getD .memory) = (.ok (r, entry), w)) (ms : UInt32) :
    ∃ s' r, (onFile s path wal ms).filled = .ok s' ∧
      connect v (s'.database.getD .memory) = (.ok (r, entry), w) ∧
      ∀ r', Relation.ReflTransGen Moves r r' → ∃ c t, r' = .embedded c t ∧
        c.busyTimeout.toInt = Int.bmod (askedTimeout ms).toNat (2 ^ 32) ∧
        (c.busyTimeout.toInt = (askedTimeout ms).toNat ↔ (askedTimeout ms).toNat < 2 ^ 31) ∧
        c.patience = if (askedTimeout ms).toNat < 2 ^ 31 then (askedTimeout ms).toNat else 0 := by
  have hfilled := filled_onFile hs ms
  rw [show s' = onFile s' path wal (askedTimeout ms₀) from
    Except.ok.inj (hs.symm.trans (filled_onFile hs ms₀))] at ho
  obtain ⟨r, ho, hw⟩ := connect_onFile ho (askedTimeout ms)
  rw [askedTimeout_asked] at hw
  refine ⟨_, r, hfilled, ho, fun r' hr => ?_⟩
  have hw' := waits_run hw hr
  cases r' with
  | memory => exact hw'.elim
  | embedded c t =>
    have hword : c.busyTimeout = Embedded.busyTimeoutWord (askedTimeout ms) := hw'
    have hlt := (askedTimeout ms).toNat_lt
    have hcases := busyTimeoutWord_cases (askedTimeout ms)
    refine ⟨c, t, rfl, ?_, ?_, ?_⟩
    · rw [hword, Embedded.busyTimeoutWord_toInt]
    · rw [hword, hcases]
      split <;> omega
    · rw [Embedded.Connection.patience, hword, hcases]
      split <;> omega

theorem own_timeout_in_force : ∃ s r entry w, (ownDatabase 7000).filled = .ok s ∧
    connect {} (s.database.getD .memory) = (.ok (r, entry), w) ∧
    ∀ r', Relation.ReflTransGen Moves r r' → ∃ c t, r' = .embedded c t ∧ c.patience = 7000 := by
  obtain ⟨s, r, hs, ho, hr⟩ :=
    busy_timeout_in_force ownDatabase_filled (ownConnection_opened 5000) 7000
  refine ⟨s, r, _, _, hs, ho, fun r' h => ?_⟩
  obtain ⟨c, t, rfl, -, -, hp⟩ := hr r' h
  exact ⟨c, t, rfl, hp.trans (by decide)⟩

/-- Who asks for a millisecond waits for one; who asks for 24 days and more does not wait at all. -/
theorem longest_timeout_not_waited :
    Gives (ownDatabase 2147483648) (ownConnection 2147483648) ∧
      Gives (ownDatabase 1) (ownConnection 1) ∧
      (ownConnection 2147483648).busyTimeout.toInt = -2147483648 ∧
      (ownConnection 2147483648).patience = 0 ∧ (ownConnection 1).patience = 1 :=
  ⟨ownDatabase_gives _, ownDatabase_gives _, by decide, by decide, by decide⟩

end Repository
end DurableTopic

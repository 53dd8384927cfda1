import DurableTopic.Proofs.Repository
import DurableTopic.Proofs.Tables
import DurableTopic.Repository.Opening
/-! What a repository that is closed leaves in its file, and what is there when the path is opened
again. Whatever is called, a connection that was opened on a file stays one on that file, and its
tables stay. Outside of transactions a repository is opened again exactly as it was. -/
namespace DurableTopic.Repository
namespace Embedded

/-- Both tables exist. -/
structure Tables.Made (t : Tables) : Prop where
  messages : t.messages.isSome
  subscriptions : t.subscriptions.isSome

theorem made_migrated {t : Tables} : t.migrated.Made := ⟨rfl, rfl⟩

/-- To make tables that exist changes no row. -/
theorem migrated_made {t : Tables} (h : t.Made) : t.migrated = t := by
  obtain ⟨messages, subscriptions, triggers⟩ := t
  obtain ⟨hm, hs⟩ := h
  obtain ⟨rows, rfl⟩ := Option.isSome_iff_exists.1 hm
  obtain ⟨subscribers, rfl⟩ := Option.isSome_iff_exists.1 hs
  rfl

namespace Volume

/-- The same directories, and at least the same files, whatever they hold. -/
structure Grows (v w : Volume) : Prop where
  working : w.working = v.working
  directories : w.directories = v.directories
  files : ∀ p, (v.files.find? p).isSome → (w.files.find? p).isSome

variable {v v' w : Volume} {a : Address} {b : Bytes} {c c₀ : Connection} {p q : Path} {wal : Bool}
  {ms : UInt32} {t : Tables} {address : String}

theorem grows_refl : v.Grows v := ⟨rfl, rfl, fun _ h => h⟩

theorem grows_trans (h : v.Grows v') (h' : v'.Grows w) : v.Grows w :=
  ⟨h'.working.trans h.working, h'.directories.trans h.directories, fun p hp =>
    h'.files p (h.files p hp)⟩

theorem grows_put {f : File} : v.Grows { v with files := v.files.put p f } := by
  refine ⟨rfl, rfl, fun q hq => ?_⟩
  simp only [Assoc.find?_put]
  split
  · rfl
  · exact hq

theorem grows_keep : v.Grows (v.keep c) := by
  unfold keep
  cases c.file with
  | none => exact grows_refl
  | some p => exact grows_put

/-- A file that is there already is only written. -/
theorem keep_grows (hc : c.file = some p) (hp : (v.files.find? p).isSome) : (v.keep c).Grows v := by
  simp only [keep, hc]
  refine ⟨rfl, rfl, fun q hq => ?_⟩
  simp only [Assoc.find?_put] at hq
  split at hq
  · rename_i h
    exact h ▸ hp
  · exact hq

/-- More files can only be in the way. -/
theorem walk_grows {name : Bytes} (h : v.Grows w) (hq : w.walk p name = some q) :
    v.walk p name = some q := by
  unfold walk at hq ⊢
  simp only [h.directories] at hq
  split at hq
  · cases hq
  · rename_i hfree
    rw [if_neg fun hv => hfree ?_]
    · exact hq
    · simp only [Bool.and_eq_true, Bool.or_eq_true] at hv ⊢
      exact ⟨hv.1, hv.2.imp_left fun hf => hf.imp_left (h.files p)⟩

theorem resolve_grows (h : v.Grows w) (hp : w.resolve b = some p) : v.resolve b = some p := by
  have hfold : ∀ (names : List Bytes) (s q : Path), names.foldlM w.walk s = some q →
      names.foldlM v.walk s = some q := by
    intro names
    induction names with
    | nil => exact fun _ _ hq => hq
    | cons name names ih =>
      intro s q hq
      obtain ⟨r, hr, hq⟩ := Option.bind_eq_some_iff.1 (List.foldlM_cons.symm.trans hq)
      exact List.foldlM_cons.trans (Option.bind_eq_some_iff.2 ⟨r, walk_grows h hr, ih r q hq⟩)
  unfold resolve at hp ⊢
  rw [h.working] at hp
  obtain ⟨q, hq, hp⟩ := Option.bind_eq_some_iff.1 hp
  exact Option.bind_eq_some_iff.2 ⟨q, hfold _ _ _ hq, hp⟩

theorem contains_grows (h : v.Grows w) (hb : v.contains b) : w.contains b := by
  have henter : w.enter = v.enter := by
    funext p name
    simp only [enter, h.directories]
  unfold contains at hb ⊢
  simp only [henter, h.working, h.directories, Bool.and_eq_true, Option.any_eq_true] at hb ⊢
  obtain ⟨hsize, p, hp, hthere⟩ := hb
  refine ⟨hsize, p, hp, ?_⟩
  rw [Bool.or_eq_true] at hthere ⊢
  exact hthere.imp_right (h.files p)

/-- What a database needs of its address, and of the files, to be opened. -/
structure Admits (v : Volume) (a : Address) (p : Path) (wal : Bool) : Prop where
  model : a.model.any (!v.contains ·) = false
  mayWrite : mayWrite a p = .ok ()
  index : (wal && a.lacksIndex) = false

theorem admits_grows (h : v.Admits a p wal) (hv : v.Grows w) : w.Admits a p wal := by
  refine ⟨?_, h.mayWrite, h.index⟩
  have hm := h.model
  cases ha : a.model with
  | none => rfl
  | some m =>
    simp only [ha, Option.any_some, Bool.not_eq_false'] at hm ⊢
    exact contains_grows hv hm

/-- A database that is in its file is opened with the tables that it held. -/
theorem openAt_database (h : v.Admits a p wal) (hp : v.files.find? p = some (.database t)) :
    v.openAt a p wal ms =
      (.ok { file := some p, tables := t.migrated, busyTimeout := busyTimeoutWord ms }, v) := by
  simp [openAt, hp, h.model, h.mayWrite, h.index]

/-- A database that is opened is in its file from then on. -/
theorem openAt_ok (h : v.openAt a p wal ms = (.ok c, w)) : v.Admits a p wal ∧ v.Grows w ∧
    ∃ t, w.files.find? p = some (.database t) ∧
      c = { file := some p, tables := t.migrated, busyTimeout := busyTimeoutWord ms } := by
  unfold openAt at h
  cases hm : a.model.any (!v.contains ·) with
  | true => simp [hm] at h
  | false =>
    cases hw : mayWrite a p with
    | error e =>
      simp only [hm, hw, Bool.false_eq_true, if_false] at h
      repeat' split at h
      all_goals cases h
    | ok _ =>
      cases hi : wal && a.lacksIndex with
      | true =>
        simp only [hm, hw, hi, Bool.false_eq_true, if_false, if_true] at h
        repeat' split at h
        all_goals cases h
      | false =>
        refine ⟨⟨hm, hw, hi⟩, ?_⟩
        simp only [hm, hw, hi, Bool.false_eq_true, if_false] at h
        split at h
        · rename_i t hp
          cases h
          exact ⟨grows_refl, t, hp, rfl⟩
        · cases h
        · cases h
        · split at h
          · cases h
          · split at h
            · cases h
              exact ⟨grows_put, noTables, by simp [Assoc.find?_put], rfl⟩
            · cases h

/-- A connection to a file is one to the file that the address names. -/
theorem connect_ok (h : v.connect address wal ms = (.ok c, w)) (hc : c.shared) :
    ∃ a p, Address.read address = .ok a ∧ a.isPrivate = false ∧ a.system ≠ Address.memorySystem ∧
      v.resolve a.path = some p ∧ v.openAt a p wal ms = (.ok c, w) := by
  unfold connect at h
  split at h
  · cases h
  · rename_i a ha
    split at h
    · split at h <;> cases h
      cases hc
    · split at h
      · split at h
        · cases h
        · split at h <;> cases h
          cases hc
      · rename_i hp hs
        split at h
        · rename_i p hr
          exact ⟨a, p, ha, by simpa using hp, hs, hr, h⟩
        · cases h

/-- Who opens an address again finds what its file holds by then, unless something is in the way that
was not there when it was opened first. -/
theorem connect_again {c₁ : Connection} (h : v.connect address wal ms = (.ok c₀, w))
    (hs : c₀.shared) (hagain : (w.connect address wal ms).1 = .ok c₁) (hc : c.file = c₀.file) :
    (w.keep c).connect address wal ms =
      (.ok { file := c₀.file, tables := (c.saved.getD c.tables).migrated,
             busyTimeout := c₀.busyTimeout }, w.keep c) := by
  obtain ⟨a, p, ha, hprivate, hsystem, hr, ho⟩ := connect_ok h hs
  obtain ⟨hadmits, hgrows, t, ht, rfl⟩ := openAt_ok ho
  have hr' : w.resolve a.path = some p := by
    cases hn : w.resolve a.path with
    | none => simp [connect, ha, hprivate, hsystem, hn] at hagain
    | some q => exact (resolve_grows hgrows hn).symm.trans hr
  have hkept : (w.keep c).resolve a.path = some p :=
    resolve_grows (keep_grows hc (by rw [ht]; rfl)) hr'
  simp only [connect, ha, hprivate, hsystem, Bool.false_eq_true, if_false, hkept]
  exact openAt_database (admits_grows hadmits (grows_trans hgrows grows_keep))
    (by simp [keep, hc, Assoc.find?_put])

end Volume

/-- A connection that calls were made on since it was opened as another one. -/
structure Connection.Serves (c₀ c : Connection) : Prop where
  file : c.file = c₀.file
  busyTimeout : c.busyTimeout = c₀.busyTimeout
  free : c.Free
  made : c.tables.Made
  saved : ∀ t, c.saved = some t → t.Made
  unlocked : c.saved = none → c.writing = false

variable {c c₀ : Connection}

theorem serves_opened {v w : Volume} {address : String} {wal : Bool} {ms : UInt32}
    (h : v.connect address wal ms = (.ok c, w)) (hs : c.shared) : c.Serves c := by
  obtain ⟨a, p, -, -, -, -, ho⟩ := Volume.connect_ok h hs
  obtain ⟨-, -, t, -, rfl⟩ := Volume.openAt_ok ho
  exact ⟨rfl, rfl, ⟨rfl, rfl⟩, made_migrated, nofun, fun _ => rfl⟩

/-- Outside of transactions nothing but its file is needed to have a connection again. -/
theorem serves_reopened (h : c₀.Serves c) (hs : c.saved = none) :
    c = { file := c₀.file, tables := c.tables.migrated, busyTimeout := c₀.busyTimeout } := by
  obtain ⟨hf, hb, hfree, hmade, -, hw⟩ := h
  have hw := hw hs
  obtain ⟨file, tables, saved, writing, lockedOut, readOnly, busyTimeout⟩ := c
  obtain ⟨hr, hl⟩ := hfree
  simp only at hf hb hr hl hmade hs hw
  rw [hf, hb, hs, hw, hr, hl, migrated_made hmade]

theorem serves_write {α : Type} {f : Tables → Except Status (α × Tables)} (h : c₀.Serves c)
    (hf : ∀ a t, f c.tables = .ok (a, t) → t.Made) : c₀.Serves (c.write f).2 := by
  cases ho : f c.tables with
  | error s =>
    rw [write_error h.free ho]
    exact ⟨h.file, h.busyTimeout, ⟨h.free.writable, h.free.unlocked⟩, h.made, h.saved,
      fun hs => by simp [show c.saved = none from hs]⟩
  | ok x =>
    obtain ⟨a, t⟩ := x
    rw [write_ok h.free ho]
    exact ⟨h.file, h.busyTimeout, ⟨h.free.writable, h.free.unlocked⟩, hf a t ho, h.saved,
      fun hs => by simp [show c.saved = none from hs]⟩

theorem serves_perform {call : Call} (h : c₀.Serves c) : c₀.Serves (perform c call).2 := by
  cases call with
  | append r =>
    simp only [perform]
    split
    · exact h
    · rename_i rows _
      have hw : c₀.Serves (c.write (·.insertMessage rows r)).2 := by
        refine serves_write h fun n t ht => ?_
        simp only [Tables.insertMessage] at ht
        split at ht
        · cases ht
        · split at ht <;> cases ht
          exact ⟨rfl, h.made.subscriptions⟩
      split <;> rename_i heq <;> rw [heq] at hw <;> exact hw
  | persist d k w =>
    simp only [perform]
    split
    · exact h
    · refine serves_write h fun n t ht => ?_
      simp only [Tables.updateAcked] at ht
      split at ht <;> cases ht
      exact ⟨h.made.messages, rfl⟩
  | put record retroactive =>
    simp only [perform]
    split
    · exact h
    · refine serves_write h fun n t ht => ?_
      simp only [Tables.upsert] at ht
      split at ht <;> cases ht <;> exact ⟨h.made.messages, rfl⟩
  | delete d k =>
    simp only [perform]
    split
    · exact h
    · refine serves_write h fun n t ht => ?_
      unfold Tables.deleteSubscriber at ht
      split at ht <;> cases ht
      exact ⟨h.made.messages, rfl⟩
  | scanAfter d k w limit =>
    simp only [perform]
    split <;> exact h
  | _ => exact h

theorem serves_begin (h : c₀.Serves c) : c₀.Serves (begin c).2 := by
  simp only [begin, Connection.begin, if_true, mayWrite_ok h.free]
  split
  · rename_i hs
    refine ⟨h.file, h.busyTimeout, ⟨h.free.writable, h.free.unlocked⟩, h.made, h.saved, fun hn => ?_⟩
    simp [show c.saved = none from hn] at hs
  · refine ⟨h.file, h.busyTimeout, ⟨h.free.writable, h.free.unlocked⟩, h.made, ?_,
      fun hn => by cases hn⟩
    rintro t ⟨⟩
    exact h.made

theorem serves_commit {x : Handle} (h : c₀.Serves c) : c₀.Serves (commit x c).2.2 := by
  unfold commit Connection.commit
  cases hs : c.saved.isSome with
  | true => exact ⟨h.file, h.busyTimeout, ⟨h.free.writable, h.free.unlocked⟩, h.made, nofun,
      fun _ => rfl⟩
  | false => exact h

theorem serves_close {x : Handle} (h : c₀.Serves c) : c₀.Serves (close x c).2 := by
  unfold close Connection.rollback
  cases x.finished with
  | true => exact h
  | false =>
    cases hs : c.saved with
    | none => exact h
    | some t => exact ⟨h.file, h.busyTimeout, ⟨h.free.writable, h.free.unlocked⟩, h.saved t hs,
        nofun, fun _ => rfl⟩

end Embedded

/-- What may become of a repository when something is asked of it. -/
inductive Moves (r : Repository) : Repository → Prop where
  | same : Moves r r
  | begin : Moves r r.begin.2
  | perform (c : Call) : Moves r (r.perform c).2
  | commit : Moves r r.commit.2
  | close : Moves r r.close.2

/-- A repository on a connection that was opened as another one. -/
def Serves (c₀ : Embedded.Connection) : Repository → Prop
  | memory .. => False
  | embedded c _ => c₀.Serves c

variable {r r' : Repository} {b : Faulty} {c₀ : Embedded.Connection}

theorem serves_moves (h : r.Serves c₀) (hr : r.Moves r') : r'.Serves c₀ := by
  cases r with
  | memory => exact h.elim
  | embedded c t =>
    cases hr with
    | same => exact h
    | begin =>
      have hb : c₀.Serves (Embedded.begin c).2 := Embedded.serves_begin h
      simp only [begin]
      split <;> rename_i heq <;> rw [heq] at hb <;> exact hb
    | perform call =>
      cases t with
      | none => exact h
      | some x => exact Embedded.serves_perform h
    | commit =>
      cases t with
      | none => exact h
      | some x => exact Embedded.serves_commit h
    | close =>
      cases t with
      | none => exact h
      | some x => exact Embedded.serves_close h

/-- A call that a fault hits may not be made. -/
theorem Faulty.begin_moves : b.repository.Moves b.begin.2.repository := by
  have hn : (b.noting .begin "begin").2.repository = b.repository := rfl
  unfold begin
  split <;> rename_i heq <;> rw [heq] at hn <;> simp only at hn
  · exact hn ▸ .same
  · exact hn ▸ .begin

theorem Faulty.forward_moves {c : Call} : b.repository.Moves (b.forward c).2.repository := .perform _

theorem Faulty.perform_moves {c : Call} : b.repository.Moves (b.perform c).2.repository := by
  unfold perform
  cases c with
  | scanAfter | scanAll => exact forward_moves (b := (b.noting _ _).2)
  | _ =>
    simp only [unlessHit]
    split
    · exact .same
    · exact forward_moves (b := (b.noting _ _).2)

theorem serves_connect {v w : Embedded.Volume} {path : String} {wal : Option Bool} {ms : UInt32}
    {e : Log.Entry} (h : connect v (.sqlite path wal ms) = (.ok (.embedded c₀ none, e), w))
    (hs : c₀.shared) : (embedded c₀ none).Serves c₀ := by
  simp only [connect] at h
  split at h
  · rename_i heq
    cases h
    exact Embedded.serves_opened heq hs
  · cases h

/-- What is closed outside of transactions is there again when its path is opened again. -/
theorem connect_closed {v w : Embedded.Volume} {path : String} {wal : Option Bool} {ms : UInt32}
    {c : Embedded.Connection} {e : Log.Entry} {again : Repository × Log.Entry}
    (h : connect v (.sqlite path wal ms) = (.ok (.embedded c₀ none, e), w)) (hs : c₀.shared)
    (hagain : (connect w (.sqlite path wal ms)).1 = .ok again) (hc : c₀.Serves c)
    (hsaved : c.saved = none) :
    connect (closed w (.embedded c none)) (.sqlite path wal ms) =
      (.ok (.embedded c none, e), closed w (.embedded c none)) := by
  simp only [connect] at h hagain ⊢
  split at h
  · rename_i heq
    cases h
    split at hagain
    · rename_i heq'
      have hopen := Embedded.Volume.connect_again heq hs (congrArg Prod.fst heq') hc.file
      rw [hsaved, Option.getD_none, ← Embedded.serves_reopened hc hsaved] at hopen
      rw [closed, hopen]
    · cases hagain
  · cases h

end Repository
end DurableTopic

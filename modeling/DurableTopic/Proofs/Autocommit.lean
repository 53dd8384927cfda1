import DurableTopic.Proofs.Embedded
/-! Transaction objects of an embedded database. Until such an object is finished it is all or
nothing. A call that is made through it afterwards runs outside a transaction and commits by
itself. -/
namespace DurableTopic.Repository.Embedded

/-- What a transaction object is used for. A commit that the database refuses leaves the transaction
active. -/
inductive Use where
  | call (c : Call)
  | commit (refusal : Option String)
  | rollback

namespace Use

/-- Whether a use finishes the object, if nothing did before. -/
def finishes : Use → Bool
  | call _ | commit (some _) => false
  | commit none | rollback => true

def call? : Use → Option Call
  | call c => some c
  | commit _ | rollback => none

/-- How a use ends. -/
def result (h : Handle) (c : Connection) : Use → Except Failure Unit
  | call _ => .ok ()
  | commit none => (Embedded.commit h c).1
  | commit (some e) => .error (.runtime e)
  | rollback => (Embedded.rollback h c).1

/-- What a use makes of the object and its connection. -/
def apply (h : Handle) (c : Connection) : Use → Handle × Connection
  | call a => (h, (perform c a).2)
  | commit none => (Embedded.commit h c).2
  | commit (some _) => (h, c)
  | rollback => (Embedded.rollback h c).2

end Use

/-- An object is used for one thing after the other. -/
def used (us : List Use) (h : Handle) (c : Connection) : Handle × Connection :=
  us.foldl (fun s u => u.apply s.1 s.2) (h, c)

/-- What is left when an object is used and then given up. -/
def spent (us : List Use) (h : Handle) (c : Connection) : Connection :=
  (close (used us h c).1 (used us h c).2).2

/-- The calls among some uses, each by itself and without a transaction. -/
def autocommitted (us : List Use) (c : Connection) : Connection :=
  (us.filterMap Use.call?).foldl (fun c a => (perform c a).2) c

variable {c c₁ : Connection} {h : Handle} {u : Use} {us early late : List Use} {t : Tables}

theorem spent_append : spent (early ++ u :: late) h c =
    spent late (u.apply (used early h c).1 (used early h c).2).1
      (u.apply (used early h c).1 (used early h c).2).2 := by
  simp [spent, used, List.foldl_append]

theorem perform_saved (c : Connection) (a : Call) : (perform c a).2.saved = c.saved := by
  obtain ⟨t, w, hp⟩ := perform_kept c a
  rw [hp]

theorem autocommitted_skip (h : u.call? = none) :
    autocommitted (u :: us) c = autocommitted us c := by
  simp [autocommitted, h]

/-- A connection on which a transaction is active that began with other tables. -/
structure Connection.Within (c : Connection) (t : Tables) (c₁ : Connection) : Prop where
  saved : c₁.saved = some t
  rest : { c with tables := c₁.tables, saved := c₁.saved, writing := c₁.writing } = c₁

theorem begin_within (hb : begin c = (.ok h, c₁)) :
    h = {} ∧ c.saved = none ∧ c.Within c.tables c₁ := by
  unfold begin Connection.begin at hb
  cases hm : c.mayWrite with
  | error s => simp [hm] at hb
  | ok =>
    cases hs : c.saved with
    | some t => simp [hm, hs] at hb
    | none =>
      simp only [if_true, hm, hs, Option.isSome_none, Bool.false_eq_true, if_false,
        Prod.mk.injEq, Except.ok.injEq] at hb
      obtain ⟨rfl, rfl⟩ := hb
      exact ⟨rfl, rfl, rfl, rfl⟩

theorem apply_within (hw : c.Within t c₁) (hu : u.finishes = false) :
    (u.apply {} c₁).1 = {} ∧ c.Within t (u.apply {} c₁).2 := by
  cases u with
  | call a =>
    obtain ⟨t', w, hp⟩ := perform_kept c₁ a
    refine ⟨rfl, (perform_saved c₁ a).trans hw.saved, ?_⟩
    simp only [Use.apply, hp]
    rw [← hw.rest]
  | commit r =>
    cases r with
    | none => cases hu
    | some e => exact ⟨rfl, hw⟩
  | rollback => cases hu

theorem used_within (hw : c.Within t c₁) (hus : ∀ u ∈ us, u.finishes = false) :
    (used us {} c₁).1 = {} ∧ c.Within t (used us {} c₁).2 := by
  induction us generalizing c₁ with
  | nil => exact ⟨rfl, hw⟩
  | cons u us ih =>
    obtain ⟨hh, hw⟩ := apply_within hw (hus u List.mem_cons_self)
    have hp : u.apply {} c₁ = ({}, (u.apply {} c₁).2) := Prod.ext hh rfl
    rw [used, List.foldl_cons, hp]
    exact ih hw fun v hv => hus v (List.mem_cons_of_mem _ hv)

/-- A finished object does nothing but pass calls on. -/
theorem used_finished (hh : h.finished = true) (hc : c.saved = none) :
    used late h c = (h, autocommitted late c) ∧ (autocommitted late c).saved = none := by
  induction late generalizing c with
  | nil => exact ⟨rfl, hc⟩
  | cons u late ih =>
    cases u with
    | call a => exact ih ((perform_saved c a).trans hc)
    | commit r =>
      have hu : (Use.commit r).apply h c = (h, c) := by
        cases r <;> simp [Use.apply, commit, Connection.commit, hc]
      rw [autocommitted_skip rfl, used, List.foldl_cons, hu]
      exact ih hc
    | rollback =>
      have hu : Use.rollback.apply h c = (h, c) := by simp [Use.apply, rollback, hh]
      rw [autocommitted_skip rfl, used, List.foldl_cons, hu]
      exact ih hc

theorem spent_finished (hh : h.finished = true) (hc : c.saved = none) :
    spent late h c = autocommitted late c := by
  rw [spent, (used_finished hh hc).1, close, if_pos hh]

/-- A call that is answered without a write changes nothing. -/
theorem perform_read {a : Call} (ha : a.writes = false) : (perform c a).2 = c := by
  cases a with
  | append | persist | put | delete => cases ha
  | scanAfter =>
    simp only [perform]
    split <;> rfl
  | _ => rfl

theorem autocommitted_reads (hl : ∀ a, .call a ∈ late → a.writes = false) :
    autocommitted late c = c := by
  induction late with
  | nil => rfl
  | cons u late ih =>
    have ih := ih fun a ha => hl a (List.mem_cons_of_mem _ ha)
    cases u with
    | call a =>
      show autocommitted late (perform c a).2 = c
      rw [perform_read (hl a List.mem_cons_self), ih]
    | commit | rollback => exact (autocommitted_skip rfl).trans ih

/-- A transaction object that is given up unfinished leaves the database as it was. One that is
committed or rolled back leaves what it had written by then, or what there was before, and on top of
that whatever is written through it afterwards: each such call is committed by itself, and no later
commit or rollback has a part in it. -/
theorem uses_settle (hb : begin c = (.ok h, c₁)) (hearly : ∀ u ∈ early, u.finishes = false) :
    (spent early h c₁).tables = c.tables ∧
    (used early h c₁).2.saved = some c.tables ∧
    Use.result (used early h c₁).1 (used early h c₁).2 (.commit none) = .ok () ∧
    spent (early ++ .commit none :: late) h c₁ =
      autocommitted late { c with tables := (used early h c₁).2.tables, writing := false } ∧
    spent (early ++ .rollback :: late) h c₁ = autocommitted late { c with writing := false } ∧
    ((∀ a, .call a ∈ late → a.writes = false) →
      (spent (early ++ .commit none :: late) h c₁).tables = (used early h c₁).2.tables ∧
      (spent (early ++ .rollback :: late) h c₁).tables = c.tables) := by
  obtain ⟨rfl, hs, hw⟩ := begin_within hb
  obtain ⟨hh, hw⟩ := used_within hw hearly
  have hcommit : (used early {} c₁).2.commit =
      (.ok (), { c with tables := (used early {} c₁).2.tables, writing := false }) := by
    rw [← hw.rest]
    simp [Connection.commit, hw.saved, hs]
  have hrollback : (used early {} c₁).2.rollback = (.ok (), { c with writing := false }) := by
    rw [← hw.rest]
    simp [Connection.rollback, hw.saved, hs]
  have hcommitted : spent (early ++ .commit none :: late) {} c₁ =
      autocommitted late { c with tables := (used early {} c₁).2.tables, writing := false } := by
    rw [spent_append, hh]
    simp only [Use.apply, commit, hcommit]
    exact spent_finished rfl hs
  have hrolled : spent (early ++ .rollback :: late) {} c₁ =
      autocommitted late { c with writing := false } := by
    rw [spent_append, hh]
    simp only [Use.apply, rollback, hrollback]
    exact spent_finished rfl hs
  refine ⟨?_, hw.saved, ?_, hcommitted, hrolled, fun hl => ?_⟩
  · simp [spent, close, hh, hrollback]
  · simp [Use.result, commit, hcommit]
  · rw [hcommitted, hrolled, autocommitted_reads hl, autocommitted_reads hl]
    exact ⟨rfl, rfl⟩

/-- An empty database. -/
def blank : Connection := { tables := ({} : Tables).migrated }

/-- A message is stored. -/
def storing (id : String) : Use := .call (.append { destination := "orders", id })

/-- What is stored before a rollback is dropped, and what is stored after it stays. -/
theorem uses_settle_late : begin blank = (.ok {}, (begin blank).2) ∧
    (spent [storing "m1"] {} (begin blank).2).tables = blank.tables ∧
    ((spent [storing "m1", .rollback, storing "m2"] {} (begin blank).2).tables.messages.map fun rows =>
      rows.map (·.id)) = some ["m2"] := by
  have hb : begin blank = (.ok {}, (begin blank).2) := by rfl
  have hearly : ∀ u ∈ [storing "m1"], u.finishes = false := by simp [storing, Use.finishes]
  obtain ⟨hdropped, -, -, -, hrolled, -⟩ := @uses_settle _ _ _ _ [storing "m2"] hb hearly
  refine ⟨hb, hdropped, ?_⟩
  rw [show [storing "m1", .rollback, storing "m2"] = [storing "m1"] ++ .rollback :: [storing "m2"]
    from rfl, hrolled]
  decide +kernel

/-- A call through a finished object changes the database: no commit came before the rollback, and yet
the database is not as it was; nor is it what it was when a commit returned. -/
theorem late_call_changes : begin blank = (.ok {}, (begin blank).2) ∧
    (spent [.rollback, storing "m1"] {} (begin blank).2).tables ≠ blank.tables ∧
    Use.result {} (begin blank).2 (.commit none) = .ok () ∧
    (spent [.commit none, storing "m1"] {} (begin blank).2).tables ≠
      (used [.commit none] {} (begin blank).2).2.tables := by
  refine ⟨rfl, ?_, rfl, ?_⟩ <;> decide +kernel

end DurableTopic.Repository.Embedded

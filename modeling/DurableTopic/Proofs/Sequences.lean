import DurableTopic.Proofs.Neighbours
import Mathlib.Data.List.Nodup
/-! Sequence numbers. Whatever transactions were run on an empty repository, the messages of a
destination are numbered from 1 without gaps, in the order in which they were stored, and no id is
stored twice. -/
namespace DurableTopic.Repository

/-- How a transaction ends. -/
inductive Ending where
  | commit | rollback | drop
  deriving Repr, DecidableEq

/-- A transaction: what it asks for, and how it ends. -/
structure Job where
  calls : List Call
  ending : Ending

/-- Calls are made one after the other. -/
def performAll (r : Repository) (cs : List Call) : Repository :=
  cs.foldl (fun r c => (r.perform c).2) r

def Ending.apply (r : Repository) : Ending → Repository
  | .commit => r.commit.2.close.2
  | .rollback => r.rollback.2.close.2
  | .drop => r.close.2

def Job.run (r : Repository) (j : Job) : Repository :=
  j.ending.apply (r.begin.2.performAll j.calls)

/-- Transactions are run one after the other. -/
def runAll (r : Repository) (js : List Job) : Repository := js.foldl Job.run r

/-- A message is added behind those of its destination, unless its id is among theirs. Ids and
destinations are compared as they are kept. -/
def logged (spell : String → String) (d : String) (log : List Row) : Call → List Row
  | .append r =>
    if spell r.destination = spell d ∧ ∀ x ∈ log, x.id ≠ spell r.id then
      log ++ [Ledger.stored spell r (log.length + 1)]
    else log
  | _ => log

/-- The messages of a destination after the calls of a transaction. -/
def loggedAll (spell : String → String) (d : String) (log : List Row) (cs : List Call) : List Row :=
  cs.foldl (logged spell d) log

/-- A transaction adds its messages when it is committed. -/
def Job.logged (spell : String → String) (d : String) (log : List Row) (j : Job) : List Row :=
  if j.ending = .commit then loggedAll spell d log j.calls else log

/-- The messages of a destination after some transactions. -/
def logFrom (spell : String → String) (d : String) (log : List Row) (js : List Job) : List Row :=
  js.foldl (Job.logged spell d) log

/-- Messages are numbered from 1 on, and no id occurs twice. -/
structure Dense (rows : List Row) : Prop where
  numbered : rows.map (·.sequence) = (List.range rows.length).map fun i : Nat => (i : Int) + 1
  distinct : (rows.map (·.id)).Nodup

section

variable {spell : String → String} {d : String} {rows : List Row} {c : Call} {cs : List Call}
  {js more : List Job}

theorem dense_nil : Dense [] := ⟨rfl, List.nodup_nil⟩

theorem dense_logged (h : Dense rows) : Dense (logged spell d rows c) := by
  cases c with
  | append r =>
    simp only [logged]
    split
    · rename_i hr
      constructor
      · simp [h.numbered, List.range_succ, Ledger.stored]
      · rw [List.map_append, List.nodup_append]
        refine ⟨h.distinct, by simp, ?_⟩
        rintro i hi j hj
        obtain ⟨x, hx, rfl⟩ := List.mem_map.1 hi
        obtain rfl : j = spell r.id := by simpa [Ledger.stored] using hj
        exact hr.2 x hx
    · exact h
  | _ => exact h

theorem dense_loggedAll (h : Dense rows) : Dense (loggedAll spell d rows cs) := by
  induction cs generalizing rows with
  | nil => exact h
  | cons c cs ih => exact ih (dense_logged h)

theorem logged_prefix : rows <+: logged spell d rows c := by
  cases c with
  | append r =>
    simp only [logged]
    split
    · exact List.prefix_append ..
    · exact List.prefix_refl _
  | _ => exact List.prefix_refl _

theorem loggedAll_prefix : rows <+: loggedAll spell d rows cs := by
  induction cs generalizing rows with
  | nil => exact List.prefix_refl _
  | cons c cs ih => exact logged_prefix.trans ih

theorem dense_jobLogged {j : Job} (h : Dense rows) : Dense (j.logged spell d rows) := by
  unfold Job.logged
  split
  · exact dense_loggedAll h
  · exact h

theorem jobLogged_prefix {j : Job} : rows <+: j.logged spell d rows := by
  unfold Job.logged
  split
  · exact loggedAll_prefix
  · exact List.prefix_refl _

theorem dense_logFrom (h : Dense rows) : Dense (logFrom spell d rows js) := by
  induction js generalizing rows with
  | nil => exact h
  | cons j js ih => exact ih (dense_jobLogged h)

theorem logFrom_prefix : rows <+: logFrom spell d rows js := by
  induction js generalizing rows with
  | nil => exact List.prefix_refl _
  | cons j js ih => exact jobLogged_prefix.trans ih

theorem logFrom_append :
    logFrom spell d rows (js ++ more) = logFrom spell d (logFrom spell d rows js) more :=
  List.foldl_append ..

/-- A call about another destination adds nothing. -/
theorem logged_apart (h : spell d ≠ spell c.destination) : logged spell d rows c = rows := by
  cases c with
  | append r => exact if_neg fun hr => h hr.1.symm
  | _ => rfl

theorem next_dense {l : Ledger} (h : Dense l.rows) : l.next = l.rows.length + 1 := by
  rcases List.eq_nil_or_concat l.rows with hn | ⟨init, x, hx⟩
  · simp [Ledger.next, hn]
  · rw [List.concat_eq_append] at hx
    have hseq := h.numbered
    simp only [hx, List.map_append, List.map_cons, List.map_nil, List.length_append,
      List.length_singleton, List.range_succ] at hseq
    have hlast := (List.append_inj' hseq rfl).2
    simp only [List.cons.injEq, and_true] at hlast
    simp [Ledger.next, hx, hlast]

theorem position_none_iff {l : Ledger} {i : String} :
    l.position spell i = none ↔ ∀ x ∈ l.rows, x.id ≠ spell i := by
  simp [Ledger.position]

/-- The one message with an id is the one that is found. -/
theorem position_eq_some_iff {l : Ledger} {i : String} {w : Watermark} (h : Dense l.rows) :
    l.position spell i = some w ↔ ∃ x ∈ l.rows, x.id = spell i ∧ x.mark = w := by
  rw [Ledger.position, Option.map_eq_some_iff]
  constructor
  · rintro ⟨x, hx, rfl⟩
    exact ⟨x, List.mem_of_find?_eq_some hx, by simpa using List.find?_some hx, rfl⟩
  · rintro ⟨x, hx, hi, rfl⟩
    refine ⟨x, ?_, rfl⟩
    cases hf : l.rows.find? (·.id = spell i) with
    | none => exact absurd (by simpa using hi) (List.find?_eq_none.1 hf x hx)
    | some y =>
      have hy : y.id = spell i := by simpa using List.find?_some hf
      rw [List.inj_on_of_nodup_map h.distinct (List.mem_of_find?_eq_some hf) hx (hy.trans hi.symm)]

/-- What a call adds is what it should. -/
theorem yields_logged {first : Nat → List Row → List Row} {l l' : Ledger} {a : c.Reply}
    (h : l.Yields spell first c a l') (hd : Dense l.rows) (hc : spell c.destination = spell d) :
    l'.rows = logged spell d l.rows c := by
  cases c with
  | append r =>
    obtain ⟨x, -, ⟨hp, -, rfl⟩ | ⟨hp, -, rfl⟩⟩ := h
    · refine (if_neg fun hr => ?_).symm
      rw [position_none_iff.2 hr.2] at hp
      cases hp
    · rw [next_dense hd]
      exact (if_pos ⟨hc, position_none_iff.1 hp⟩).symm
  | persist | put | delete =>
    obtain ⟨-, rfl⟩ := h
    rfl
  | resolve | load | scanAfter | scanAll | count | get | list =>
    obtain ⟨-, rfl⟩ := h
    rfl

end

/-- A repository that is in order for all destinations and has committed these messages. -/
structure Holds (spell : String → String) (log : String → List Row) (r : Repository) : Prop where
  spelled : r.spell = spell
  sound : ∀ d, r.Sound d
  tidy : ∀ d, r.Tidy d
  committed : ∀ d, (r.committed d).rows = log d

/-- The transaction of a repository is active and sees these messages. -/
def Sees (view : String → List Row) (r : Repository) : Prop :=
  ∀ d, ∃ l, r.stand d = .active l ∧ l.rows = view d

section

variable {r : Repository} {spell : String → String} {d e : String} {c : Call} {cs : List Call}
  {js : List Job} {j : Job} {log view : String → List Row}

/-- Destinations that are kept as the same are one. -/
theorem same_destination (h : r.spell d = r.spell e) :
    r.stand d = r.stand e ∧ r.committed d = r.committed e ∧ (r.Sound d ↔ r.Sound e) ∧
    (r.Tidy d ↔ r.Tidy e) := by
  cases r with
  | memory =>
    obtain rfl : d = e := h
    exact ⟨rfl, rfl, Iff.rfl, Iff.rfl⟩
  | embedded c t =>
    have hd : Text.beforeNul d = Text.beforeNul e := h
    have hl : ∀ t : Embedded.Tables, t.ledger d = t.ledger e := by
      intro t
      unfold Embedded.Tables.ledger Embedded.KeyColumns.of
      rw [hd]
    refine ⟨?_, hl _, by simp only [Sound, hl], Iff.rfl⟩
    cases t with
    | none => rfl
    | some x => simp only [stand, hl]

theorem begin_holds (h : r.Holds spell log) (hn : r.hasTransaction = false) :
    r.begin.1 = .ok () ∧ r.begin.2.Holds spell log ∧ r.begin.2.Sees log := by
  have hok := (begin_tidy (h.tidy "") (h.sound "") hn).1
  have hspec := fun d => begin_spec (h.sound d) hn
  refine ⟨hok, ⟨(hspec "").2.2.1.trans h.spelled, fun d => (hspec d).1,
    fun d => (begin_tidy (h.tidy d) (h.sound d) hn).2.1, fun d => ?_⟩, fun d => ?_⟩
  · rw [(hspec d).2.1]
    exact h.committed d
  · rcases (hspec d).2.2.2 with ⟨f, hf, -⟩ | ⟨-, ha⟩
    · rw [hok] at hf
      cases hf
    · exact ⟨_, ha, h.committed d⟩

theorem perform_holds (h : r.Holds spell log) (hv : r.Sees view) (hd : ∀ d, Dense (view d))
    (hc : c.Named) :
    (r.perform c).2.Holds spell log ∧
    (r.perform c).2.Sees fun d => logged spell d (view d) c := by
  obtain ⟨l, hl, hrows⟩ := hv c.destination
  obtain ⟨hsound, hcommitted, hspell, -⟩ := perform_spec (c := c) (h.sound _) hl rfl
  obtain ⟨htidy, -, l', hl', hy⟩ := perform_yields (h.tidy _) (h.sound _) hl rfl hc
  have heach : ∀ d, (r.perform c).2.Sound d ∧ (r.perform c).2.Tidy d ∧
      (r.perform c).2.committed d = r.committed d ∧
      ∃ x, (r.perform c).2.stand d = .active x ∧ x.rows = logged r.spell d (view d) c := by
    intro d
    obtain ⟨x, hx, hxr⟩ := hv d
    by_cases hd' : r.spell d = r.spell c.destination
    · obtain ⟨hs, hk, -⟩ := same_destination hd'
      obtain ⟨hs', hk', hsound', htidy'⟩ :=
        same_destination (show (r.perform c).2.spell d = _ from hspell ▸ hd')
      obtain rfl : x = l := by simpa [hs, hl] using hx.symm
      refine ⟨hsound'.2 hsound, htidy'.2 htidy, hk'.trans (hcommitted.trans hk.symm), l',
        hs'.trans hl', ?_⟩
      rw [← hxr]
      exact yields_logged hy (hxr ▸ hd d) hd'.symm
    · obtain ⟨hsound, htidy, hk, hs⟩ := perform_aside (h.sound d) (h.tidy d) (h.sound _) hd'
      exact ⟨hsound, htidy, hk, x, hs.trans hx, hxr.trans (logged_apart hd').symm⟩
  refine ⟨⟨hspell.trans h.spelled, fun d => (heach d).1, fun d => (heach d).2.1, fun d => ?_⟩,
    h.spelled ▸ fun d => (heach d).2.2.2⟩
  rw [(heach d).2.2.1]
  exact h.committed d

theorem performAll_holds (h : r.Holds spell log) (hv : r.Sees view) (hd : ∀ d, Dense (view d))
    (hcs : ∀ c ∈ cs, c.Named) :
    (r.performAll cs).Holds spell log ∧
    (r.performAll cs).Sees fun d => loggedAll spell d (view d) cs := by
  induction cs generalizing r view with
  | nil => exact ⟨h, hv⟩
  | cons c cs ih =>
    obtain ⟨h', hv'⟩ := perform_holds h hv hd (hcs c List.mem_cons_self)
    exact ih h' hv' (fun d => dense_logged (hd d)) fun x hx => hcs x (List.mem_cons_of_mem _ hx)

theorem close_holds (h : r.Holds spell log) : r.close.2.Holds spell log := by
  refine ⟨(close_spec (h.sound "")).2.2.1.trans h.spelled, fun d => (close_spec (h.sound d)).1,
    fun d => (close_tidy (h.tidy d)).1, fun d => ?_⟩
  rw [(close_spec (h.sound d)).2.1]
  exact h.committed d

theorem commit_holds (h : r.Holds spell log) (hv : r.Sees view) :
    r.commit.1 = .ok () ∧ r.commit.2.Holds spell view := by
  have heach : ∀ d, r.commit.2.Sound d ∧ r.commit.2.spell = r.spell ∧ r.commit.1 = .ok () ∧
      (r.commit.2.committed d).rows = view d := by
    intro d
    obtain ⟨l, hl, hrows⟩ := hv d
    obtain ⟨hs, hspell, hok, hk, -⟩ := commit_spec (h.sound d) hl
    exact ⟨hs, hspell, hok, hk ▸ hrows⟩
  exact ⟨(heach "").2.2.1, (heach "").2.1.trans h.spelled, fun d => (heach d).1,
    fun d => (commit_tidy (h.tidy d)).1, fun d => (heach d).2.2.2⟩

theorem rollback_holds (h : r.Holds spell log) (hv : r.Sees view) :
    r.rollback.2.Holds spell log := by
  have heach : ∀ d, r.rollback.2.Sound d ∧ r.rollback.2.spell = r.spell ∧
      r.rollback.2.committed d = r.committed d := by
    intro d
    obtain ⟨l, hl, -⟩ := hv d
    obtain ⟨hs, hspell, -, hk, -⟩ := rollback_spec (h.sound d) hl
    exact ⟨hs, hspell, hk⟩
  refine ⟨(heach "").2.1.trans h.spelled, fun d => (heach d).1, fun d => (rollback_tidy (h.tidy d)).1,
    fun d => ?_⟩
  rw [(heach d).2.2]
  exact h.committed d

theorem job_holds (h : r.Holds spell log) (hn : r.hasTransaction = false) (hd : ∀ d, Dense (log d))
    (hj : ∀ c ∈ j.calls, c.Named) :
    (j.run r).Holds spell (fun d => j.logged spell d (log d)) ∧ (j.run r).hasTransaction = false := by
  obtain ⟨-, hb, hv⟩ := begin_holds h hn
  obtain ⟨hp, hv⟩ := performAll_holds hb hv hd hj
  obtain ⟨calls, ending⟩ := j
  cases ending with
  | commit => exact ⟨close_holds (commit_holds hp hv).2, hasTransaction_close⟩
  | rollback => exact ⟨close_holds (rollback_holds hp hv), hasTransaction_close⟩
  | drop => exact ⟨close_holds hp, hasTransaction_close⟩

theorem runAll_holds (h : r.Holds spell log) (hn : r.hasTransaction = false)
    (hd : ∀ d, Dense (log d)) (hjs : ∀ j ∈ js, ∀ c ∈ j.calls, c.Named) :
    (r.runAll js).Holds spell (fun d => logFrom spell d (log d) js) ∧
    (r.runAll js).hasTransaction = false := by
  induction js generalizing r log with
  | nil => exact ⟨h, hn⟩
  | cons j js ih =>
    obtain ⟨h', hn'⟩ := job_holds h hn hd (hjs j List.mem_cons_self)
    exact ih h' hn' (fun d => dense_jobLogged (hd d)) fun x hx => hjs x (List.mem_cons_of_mem _ hx)

/-- A repository to which nothing was done. -/
inductive Fresh : Repository → Prop where
  | inMemory : Fresh inMemory
  | onDatabase (file : Option Embedded.Path) : Fresh (onDatabase file)

theorem fresh_holds (h : r.Fresh) :
    r.Holds r.spell (fun _ => []) ∧ r.hasTransaction = false := by
  cases h with
  | inMemory =>
    exact ⟨⟨rfl, fun d => ⟨Memory.topic_sound_empty, by simp⟩, fun d => tidy_inMemory, fun d => rfl⟩,
      rfl⟩
  | onDatabase file =>
    exact ⟨⟨rfl, fun d => ⟨⟨.nil, fun _ h => nomatch h⟩, by simp, rfl⟩, fun d => tidy_onDatabase,
      fun d => rfl⟩, rfl⟩

/-- A message that is refused keeps its sequence number. -/
theorem append_refused {row : Row} {x : Appended} (h : (r.perform (.append row)).1 = .ok x)
    (hx : x.status.isOk = false) : x.sequence = row.sequence := by
  cases r with
  | memory ts t =>
    cases t with
    | none => cases h
    | some t =>
      simp only [perform, Memory.Transaction.perform, Memory.Transaction.write] at h
      split at h
      · simp only [Memory.Topic.append] at h
        split at h
        · cases h
          rfl
        · cases h
          cases hx
      · cases h
  | embedded c t =>
    cases t with
    | none => cases h
    | some t =>
      simp only [perform, Embedded.perform] at h
      split at h
      · cases h
        rfl
      · split at h
        · cases h
          cases hx
        · cases h
          rfl

end

/-- A call that leaves its destination as it is leaves every destination as it is. -/
theorem perform_unchanged {r : Repository} {spell : String → String} {log : String → List Row}
    {l : Ledger} {c : Call} (h : r.Holds spell log) (hl : r.stand c.destination = .active l)
    (hl' : (r.perform c).2.stand c.destination = .active l) (e : String) :
    (r.perform c).2.stand e = r.stand e ∧ (r.perform c).2.committed e = r.committed e := by
  obtain ⟨-, hk, hspell, -⟩ := perform_spec (c := c) (h.sound _) hl rfl
  by_cases he : r.spell e = r.spell c.destination
  · obtain ⟨hs, hc, -⟩ := same_destination he
    obtain ⟨hs', hc', -⟩ := same_destination (show (r.perform c).2.spell e = _ from hspell ▸ he)
    exact ⟨hs'.trans (hl'.trans (hl.symm.trans hs.symm)), hc'.trans (hk.trans hc.symm)⟩
  · obtain ⟨-, -, hk, hs⟩ := perform_aside (h.sound e) (h.tidy e) (h.sound _) he
    exact ⟨hs, hk⟩

/-- What a transaction says about a destination of which it sees these messages. The next message gets
the next number. One whose id is among them is refused, and then everything stays as it is. -/
structure Numbers (d : String) (visible : List Row) (tx : Repository) : Prop where
  sees : ∃ l, tx.stand d = .active l ∧ l.rows = visible
  dense : Dense visible
  append : ∀ row : Row, row.destination = d → row.id ≠ "" →
    ∃ x, (tx.perform (.append row)).1 = .ok x ∧
      (x.status.isOk = false ↔ ∃ y ∈ visible, y.id = tx.spell row.id) ∧
      (x.status.isOk = true → x.sequence = visible.length + 1) ∧
      (x.status.isOk = false → x.sequence = row.sequence ∧
        ∀ e, (tx.perform (.append row)).2.stand e = tx.stand e ∧
          (tx.perform (.append row)).2.committed e = tx.committed e)
  resolve : ∀ i, ∃ o, (tx.perform (.resolve d i)).1 = .ok o ∧
    ∀ w, o = some w ↔ ∃ y ∈ visible, y.id = tx.spell i ∧ y.mark = w

section

variable {r : Repository} {spell : String → String} {d : String} {cs : List Call} {js : List Job}
  {log view : String → List Row}

theorem numbers_of_sees (h : r.Holds spell log) (hv : r.Sees view) (hd : ∀ d, Dense (view d)) :
    r.Numbers d (view d) := by
  obtain ⟨l, hl, hrows⟩ := hv d
  refine ⟨⟨l, hl, hrows⟩, hd d, fun row hrow hid => ?_, fun i => ?_⟩
  · subst hrow
    obtain ⟨-, -, l', hl', x, hx, hy⟩ :=
      perform_yields (c := .append row) (h.tidy _) (h.sound _) hl rfl hid
    rw [← hrows]
    refine ⟨x, hx, ?_⟩
    rcases hy with ⟨hp, hno, rfl⟩ | ⟨hp, rfl, -⟩
    · obtain ⟨w, hw⟩ := Option.isSome_iff_exists.1 hp
      obtain ⟨y, hy, hi, -⟩ := (position_eq_some_iff (hrows ▸ hd _)).1 hw
      exact ⟨iff_of_true hno ⟨y, hy, hi⟩, fun hyes => absurd (hno.symm.trans hyes) nofun,
        fun _ => ⟨append_refused hx hno, perform_unchanged h hl hl'⟩⟩
    · refine ⟨iff_of_false nofun ?_, fun _ => next_dense (hrows ▸ hd _), nofun⟩
      rintro ⟨y, hy, hi⟩
      exact position_none_iff.1 hp y hy hi
  · obtain ⟨-, -, l', -, hy, -⟩ :=
      perform_yields (c := .resolve d i) (h.tidy d) (h.sound d) hl rfl trivial
    refine ⟨_, hy, fun w => ?_⟩
    rw [← hrows]
    exact position_eq_some_iff (hrows ▸ hd d)

/-- Sequence numbers are dense, stable and unique. After any transactions on an empty repository the
committed messages of a destination are those that the committed transactions added, numbered from 1
on; they keep their numbers in whatever follows; and a transaction that has made any calls numbers its
next message accordingly. -/
theorem sequences_dense (h : r.Fresh) (hjs : ∀ j ∈ js, ∀ c ∈ j.calls, c.Named)
    (hcs : ∀ c ∈ cs, c.Named) :
    (r.runAll js).begin.1 = .ok () ∧ ((r.runAll js).begin.2.performAll cs).commit.1 = .ok () ∧
    ∀ d, ((r.runAll js).committed d).rows = logFrom r.spell d [] js ∧
      Dense (logFrom r.spell d [] js) ∧
      (∀ more, logFrom r.spell d [] js <+: logFrom r.spell d [] (js ++ more)) ∧
      ((r.runAll js).begin.2.performAll cs).spell = r.spell ∧
      ((r.runAll js).begin.2.performAll cs).Numbers d
        (loggedAll r.spell d (logFrom r.spell d [] js) cs) := by
  obtain ⟨hr, hn⟩ := fresh_holds h
  obtain ⟨hr, hn⟩ := runAll_holds hr hn (fun _ => dense_nil) hjs
  have hd : ∀ d, Dense (logFrom r.spell d [] js) := fun d => dense_logFrom dense_nil
  obtain ⟨hok, hb, hv⟩ := begin_holds hr hn
  obtain ⟨hp, hv⟩ := performAll_holds hb hv hd hcs
  refine ⟨hok, (commit_holds hp hv).1, fun d => ⟨hr.committed d, hd d, fun more => ?_, hp.spelled,
    numbers_of_sees hp hv fun d => dense_loggedAll (hd d)⟩⟩
  rw [logFrom_append]
  exact logFrom_prefix

end

def order (id : String) : Call := .append { destination := "orders", id }

/-- A transaction that stores a message twice and one of another destination, and one that is rolled
back. -/
def twoJobs : List Job :=
  [⟨[order "m1", order "m1", .append { destination := "news", id := "n1" }], .commit⟩,
    ⟨[order "m2"], .rollback⟩]

theorem sequences_dense_orders :
    (((onDatabase none).runAll twoJobs).committed "orders").rows.map (·.sequence) = [1] ∧
    ∃ x, ((((onDatabase none).runAll twoJobs).begin.2.performAll [order "m3"]).perform
      (order "m4")).1 = .ok x ∧ x.status.isOk = true ∧ x.sequence = 3 := by
  have hjs : ∀ j ∈ twoJobs, ∀ c ∈ j.calls, c.Named := by simp [twoJobs, order, Call.Named]
  have hcs : ∀ c ∈ [order "m3"], c.Named := by simp [order, Call.Named]
  obtain ⟨-, -, h⟩ := sequences_dense (.onDatabase none) hjs hcs
  obtain ⟨hrows, -, -, hspell, hn⟩ := h "orders"
  obtain ⟨x, hx, hno, hseq, -⟩ := hn.append { destination := "orders", id := "m4" } rfl (by decide)
  have hok : x.status.isOk = true := by
    rw [← Bool.not_eq_false, hno, hspell]
    decide +kernel
  refine ⟨?_, x, hx, hok, (hseq hok).trans ?_⟩
  · rw [hrows]
    decide +kernel
  · decide +kernel

end DurableTopic.Repository

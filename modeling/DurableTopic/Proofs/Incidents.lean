import DurableTopic.Proofs.Mishaps
import DurableTopic.Proofs.Native
/-! What an engine refuses to the embedded repository. A call is refused at one moment at most, and what
it answers says at which and why. -/
namespace DurableTopic.Repository.Embedded

/-- A step of the engine that a call depends on. -/
inductive Moment where
  | begin
  | commit
  | prepare (q : Query)
  | step (q : Query)
  deriving Repr, DecidableEq

/-- Whether a statement is run for a call that can report what goes wrong. -/
def Query.isReported : Query → Bool
  | .highest _ | .insert _ | .persist .. | .put .. | .delete .. | .scanAfter ..
  | .scanAll .. => true
  | .resolve .. | .load .. | .count .. | .get .. | .list _ => false

/-- The refusal in what a statement gave. -/
def Query.refusal? : (q : Query) → q.Outcome → Option Refusal
  | .highest _, x | .count .., x => x.refusal?
  | .resolve .., x | .load .., x => x.refusal?
  | .get .., x => x.refusal?
  | .insert _, x | .persist .., x | .put .., x | .delete .., x => x.refusal?
  | .scanAfter .., x | .scanAll .., x => x.refusal
  | .list _, x => x.refusal

/-- The statements that are run for a call. -/
def Runs : Call → Query → Prop
  | .append r, q => q = .highest r.destination ∨ ∃ n, q = .insert { r with sequence := n }
  | .resolve d id, q => q = .resolve d id
  | .persist d k w, q => q = .persist d k w
  | .load d k, q => q = .load d k
  | .scanAfter d k above limit, q => q = .scanAfter d k above.sequence (limitWord limit)
  | .scanAll d k, q => q = .scanAll d k
  | .count d k, q => q = .count d k
  | .put record retroactive, q => q = .put record retroactive
  | .get d k, q => q = .get d k
  | .delete d k, q => q = .delete d k
  | .list d, q => q = .list d

namespace Moment

/-- Whether a refusal is reported. All others are raised. -/
def isReported : Moment → Bool
  | prepare q | step q => q.isReported
  | begin | commit => false

/-- Whether the code of a refusal is told to the caller: a statement is stepped for a call that can
report it. -/
def isCoded : Moment → Bool
  | step q => q.isReported
  | _ => false

/-- The statement that is prepared or stepped. -/
def query? : Moment → Option Query
  | prepare q | step q => some q
  | begin | commit => none

/-- What a failure that is raised begins with. -/
def lead : Moment → String
  | prepare _ => "sqlite prepare: "
  | _ => ""

end Moment

/-- Something that the engine refused. -/
structure Incident where
  moment : Moment
  refusal : Refusal
  deriving Repr, DecidableEq

namespace Incident

/-- The code under which a caller is told of an incident. -/
def code (i : Incident) : ErrorCode := if i.moment.isCoded then i.refusal.code else .internalError

/-- What a caller is told of an incident. -/
def text (i : Incident) : String :=
  if i.moment.isReported then i.refusal.text else Text.beforeNul (i.moment.lead ++ i.refusal.text)

/-- How an incident looks from outside the repository. -/
def trouble (i : Incident) : Trouble :=
  if i.moment.isReported then .report ⟨i.code, i.text⟩
  else .raise (.runtime (i.moment.lead ++ i.refusal.text))

end Incident

namespace Engine

variable {δ : Type}

/-- The same engine, with a record of its incidents. A rollback that fails is none. -/
def noted (E : Engine δ) : Engine (δ × List Incident) where
  execute k s :=
    let (r, c) := E.execute k s.1
    let m : Option Moment :=
      match k with
      | .begin => some .begin
      | .commit => some .commit
      | .rollback => none
    (r, c, s.2 ++ (m.bind fun m => r.map (⟨m, ·⟩)).toList)
  prepare q s :=
    let (r, c) := E.prepare q s.1
    (r, c, s.2 ++ (r.map (⟨.prepare q, ·⟩)).toList)
  step q s :=
    let (x, c) := E.step q s.1
    (x, c, s.2 ++ ((q.refusal? x).map (⟨.step q, ·⟩)).toList)

end Engine

/-- Of all incidents there is at most one. It is what went wrong, and if it happened to a statement, the
statement was to be run. -/
def Accounted (R : Query → Prop) (t : Option Trouble) (is : List Incident) : Prop :=
  is = [] ∨ ∃ i, is = [i] ∧ t = some i.trouble ∧ ∀ q, i.moment.query? = some q → R q

section

variable {δ : Type} {E : Engine δ} {c : δ} {is : List Incident} {i : Incident} {q : Query}
  {context : String} {call : Call} {h : Handle} {r : Refusal} {R S : Query → Prop} {t : Option Trouble}

theorem code_ne_ok : r.code ≠ .ok := by
  unfold Refusal.code
  repeat' split
  all_goals nofun

theorem trouble_failure :
    i.trouble.failure context = .store i.code (context ++ ": " ++ i.text) := by
  unfold Incident.trouble
  split
  · rfl
  · rename_i hr
    have hc : i.moment.isCoded = false := by
      cases hm : i.moment <;> simp_all [Moment.isReported, Moment.isCoded]
    simp [Trouble.failure, Trouble.code, Trouble.text, Incident.code, Incident.text, hr, hc,
      Failure.message, Failure.text]

theorem trouble_foreign : i.trouble.isOwn = false := by
  unfold Incident.trouble
  split <;> rfl

/-- A lock that is held by someone else is told as such where the code of a refusal is told. -/
theorem code_busy (h : i.refusal.isLock) : i.code = .busy ↔ i.moment.isCoded := by
  have hr : i.refusal.code = .busy := if_pos h
  unfold Incident.code
  split <;> simp_all

theorem trouble_control :
    (Incident.mk .begin r).trouble = .raise (.runtime r.text) ∧
      (Incident.mk .commit r).trouble = .raise (.runtime r.text) := by
  simp [Incident.trouble, Moment.isReported, Moment.lead]

theorem trouble_raised (h : q.isReported = false) :
    (Incident.mk (.prepare q) r).trouble = .raise (.runtime ("sqlite prepare: " ++ r.text)) ∧
      (Incident.mk (.step q) r).trouble = .raise (.runtime r.text) := by
  simp [Incident.trouble, Moment.isReported, Moment.lead, h]

theorem trouble_reported (h : q.isReported) :
    Trouble.ofStatus? (internal r.text) = some (Incident.mk (.prepare q) r).trouble ∧
      Trouble.ofStatus? r.status = some (Incident.mk (.step q) r).trouble := by
  simp [Incident.trouble, Moment.isReported, Moment.isCoded, Incident.code, Incident.text, h,
    Trouble.ofStatus?, internal, Refusal.status, Status.isOk, code_ne_ok]

/-- The record of the incidents changes nothing. -/
theorem run_noted {β : Type} {refuse : Refusal → β} {f : q.Outcome → β} :
    (E.noted.run q refuse f (c, is)).map id Prod.fst = E.run q refuse f c := by
  unfold Engine.run
  rcases hp : E.prepare q c with ⟨_ | r, c'⟩ <;> simp [Engine.noted, hp]

theorem read_noted {α : Type} {f : q.Outcome → Except Failure α} :
    (E.noted.read q f (c, is)).map id Prod.fst = E.read q f c := run_noted

theorem write_noted {f : q.Outcome → Status} :
    (E.noted.write q f (c, is)).map id Prod.fst = E.write q f c := run_noted

theorem append_noted {row : Row} :
    (E.noted.append row (c, is)).map id Prod.fst = E.append row c := by
  unfold Engine.append
  rw [← @run_noted δ E c is]
  rcases E.noted.run (.highest row.destination) (fun x => Except.error (internal x.text)) First.next
    (c, is) with ⟨_ | n, c', is'⟩
  · rfl
  · exact run_noted

theorem perform_noted : (E.noted.perform call (c, is)).map id Prod.fst = E.perform call c := by
  cases call with
  | append => exact append_noted
  | resolve | load | count | get | list => exact read_noted
  | persist | put | delete => exact write_noted
  | scanAfter d k above limit =>
    by_cases hl : limit = 0
    · simp only [Engine.perform, if_pos hl]
      rfl
    · simp only [Engine.perform, if_neg hl]
      exact run_noted
  | scanAll => exact run_noted

theorem commit_noted :
    (E.noted.commit h (c, is)).map id (Prod.map id Prod.fst) = E.commit h c := by
  unfold Engine.commit
  rcases hx : E.execute .commit c with ⟨_ | r, c'⟩ <;> simp [Engine.noted, hx]

theorem close_noted : (E.noted.close h (c, is)).map id Prod.fst = E.close h c := by
  unfold Engine.close
  split
  · rfl
  · rcases hx : E.execute .rollback c with ⟨_ | r, c'⟩ <;> simp [Engine.noted, hx]

theorem accounted_mono (h : ∀ q, R q → S q) (ha : Accounted R t is) : Accounted S t is :=
  ha.imp id fun ⟨i, hi, ht, hR⟩ => ⟨i, hi, ht, fun q hq => h q (hR q hq)⟩

/-- A statement is refused when it is prepared, or when it is stepped, or not at all. -/
theorem run_accounted {β : Type} {T : β → Option Trouble} {refuse : Refusal → β} {f : q.Outcome → β}
    (hq : R q) (hr : ∀ r, T (refuse r) = some (Incident.mk (.prepare q) r).trouble)
    (hf : ∀ o r, q.refusal? o = some r → T (f o) = some (Incident.mk (.step q) r).trouble) :
    ∃ x c' js, E.noted.run q refuse f (c, is) = (x, c', is ++ js) ∧ Accounted R (T x) js := by
  have hstates {m : Moment} (hm : m.query? = some q) : ∀ q', m.query? = some q' → R q' := by
    rintro q' hq'
    obtain rfl : q = q' := Option.some.inj (hm.symm.trans hq')
    exact hq
  unfold Engine.run
  rcases hp : E.prepare q c with ⟨_ | r, c'⟩
  · rcases hs : E.step q c' with ⟨o, c''⟩
    refine ⟨f o, c'', ((q.refusal? o).map (⟨.step q, ·⟩)).toList,
      by simp [Engine.noted, hp, hs], ?_⟩
    cases ho : q.refusal? o with
    | none => exact Or.inl rfl
    | some r => exact Or.inr ⟨_, rfl, hf o r ho, hstates rfl⟩
  · exact ⟨refuse r, c', [⟨.prepare q, r⟩], by simp [Engine.noted, hp],
      Or.inr ⟨_, rfl, hr r, hstates rfl⟩⟩

/-- What goes wrong in a call that only reads is raised. -/
theorem read_accounted {α : Type} {f : q.Outcome → Except Failure α} (hq : R q) (h : q.isReported = false)
    (hf : ∀ o r, q.refusal? o = some r → f o = .error (.runtime r.text)) :
    ∃ x c' js, E.noted.read q f (c, is) = (x, c', is ++ js) ∧
      Accounted R (Trouble.of? (fun _ => none) x) js :=
  run_accounted hq (fun _ => by rw [(trouble_raised h).1]; rfl)
    fun o r ho => by rw [hf o r ho, (trouble_raised h).2]; rfl

/-- What goes wrong in a call that writes is reported. -/
theorem write_accounted {f : q.Outcome → Status} (hq : R q) (h : q.isReported)
    (hf : ∀ o r, q.refusal? o = some r → f o = r.status) :
    ∃ x c' js, E.noted.write q f (c, is) = (x, c', is ++ js) ∧
      Accounted R (Trouble.of? Trouble.ofStatus? x) js :=
  run_accounted hq (fun _ => (trouble_reported h).1)
    fun o r ho => by rw [hf o r ho]; exact (trouble_reported h).2

theorem scan_accounted {f : q.Outcome → Scan} (hq : R q) (h : q.isReported)
    (hf : ∀ o r, q.refusal? o = some r → (f o).outcome = .ok r.status) :
    ∃ x c' js, E.noted.run q (fun r => ⟨[], .ok (internal r.text)⟩) f (c, is) = (x, c', is ++ js) ∧
      Accounted R (Trouble.of? Trouble.ofStatus? x.outcome) js :=
  run_accounted (T := fun x : Scan => Trouble.of? Trouble.ofStatus? x.outcome) hq
    (fun _ => (trouble_reported h).1)
    fun o r ho => by rw [hf o r ho]; exact (trouble_reported h).2

theorem First.eq_refused {α : Type} {x : First α} (h : x.refusal? = some r) : x = .refused r := by
  cases x <;> cases h
  rfl

/-- The trouble of a message that gets no number. -/
def unnumbered : Except Status Int → Option Trouble
  | .error s => Trouble.ofStatus? s
  | .ok _ => none

/-- If the highest number is refused, nothing is inserted. -/
theorem append_accounted {row : Row} : ∃ x c' js,
    E.noted.append row (c, is) = (x, c', is ++ js) ∧
      Accounted (Runs (.append row)) (Trouble.of? (Trouble.ofStatus? ·.status) x) js := by
  have hnumber : ∃ x c' js, E.noted.run (.highest row.destination)
      (fun x => .error (internal x.text)) First.next (c, is) = (x, c', is ++ js) ∧
      Accounted (Runs (.append row)) (unnumbered x) js :=
    run_accounted (Or.inl rfl) (fun _ => (trouble_reported rfl).1)
      fun o r ho => by rw [First.eq_refused ho]; exact (trouble_reported rfl).2
  obtain ⟨x, c', js, hx, hjs⟩ := hnumber
  unfold Engine.append
  rw [hx]
  cases x with
  | error s => exact ⟨_, c', js, rfl, hjs⟩
  | ok n =>
    obtain rfl : js = [] := hjs.resolve_right (by rintro ⟨i, -, hi, -⟩; cases hi)
    rw [List.append_nil]
    exact run_accounted (Or.inr ⟨n, rfl⟩) (fun _ => (trouble_reported rfl).1)
      fun o r ho => by rw [First.eq_refused ho]; exact (trouble_reported rfl).2

/-- A call is refused at most once, and then its answer says so. -/
theorem perform_accounted : ∃ x c' js,
    E.noted.perform call (c, is) = (x, c', is ++ js) ∧ Accounted (Runs call) (call.trouble? x) js := by
  cases call with
  | append row => exact append_accounted
  | resolve | load | get | count =>
    exact read_accounted rfl rfl fun o r ho => by rw [First.eq_refused ho]; rfl
  | list =>
    refine read_accounted rfl rfl fun o r ho => ?_
    have ho : o.refusal = some r := ho
    simp [Rows.read, ho]
  | persist | put | delete =>
    exact write_accounted rfl rfl fun o r ho => by rw [First.eq_refused ho]; rfl
  | scanAfter d k above limit =>
    by_cases hl : limit = 0
    · exact ⟨{}, c, [], by simp [Engine.perform, hl], Or.inl rfl⟩
    · simp only [Engine.perform, if_neg hl]
      refine scan_accounted rfl rfl fun o r ho => ?_
      have ho : o.refusal = some r := ho
      simp [Rows.scan, ho]
  | scanAll =>
    refine scan_accounted rfl rfl fun o r ho => ?_
    have ho : o.refusal = some r := ho
    simp [Rows.scan, ho]

theorem begin_accounted : ∃ x c' js, E.noted.begin (c, is) = (x, c', is ++ js) ∧
    Accounted R (Trouble.of? (fun _ => none) x) js := by
  unfold Engine.begin
  rcases hx : E.execute .begin c with ⟨_ | r, c'⟩
  · exact ⟨.ok {}, c', [], by simp [Engine.noted, hx], Or.inl rfl⟩
  · exact ⟨.error (.runtime r.text), c', [⟨.begin, r⟩], by simp [Engine.noted, hx],
      Or.inr ⟨_, rfl, congrArg some trouble_control.1.symm, nofun⟩⟩

theorem commit_accounted : ∃ x h' c' js, E.noted.commit h (c, is) = (x, h', c', is ++ js) ∧
    Accounted R (Trouble.of? (fun _ => none) x) js := by
  unfold Engine.commit
  rcases hx : E.execute .commit c with ⟨_ | r, c'⟩
  · exact ⟨.ok (), ⟨true, true⟩, c', [], by simp [Engine.noted, hx], Or.inl rfl⟩
  · exact ⟨.error (.runtime r.text), h, c', [⟨.commit, r⟩], by simp [Engine.noted, hx],
      Or.inr ⟨_, rfl, congrArg some trouble_control.2.symm, nofun⟩⟩

theorem close_accounted : (E.noted.close h (c, is)).2.2 = is := by
  unfold Engine.close
  split
  · rfl
  · rcases hx : E.execute .rollback c with ⟨_ | r, c'⟩ <;> simp [Engine.noted, hx]

end

end DurableTopic.Repository.Embedded

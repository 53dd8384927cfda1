import DurableTopic.Proofs.Discipline
import DurableTopic.Proofs.Meanwhile
/-! Passes that are run in any weather, which may fail whatever is asked of the repository. Their
listener answers as it likes and remembers what it likes, and makes no calls. A pass in any weather
comes to its end, and is one of those that threads may make. -/
namespace DurableTopic.Store

open Cursor (Thread Cache)

/-- What a listener answers to a question, and what it remembers from then on. -/
abbrev Responder (σ : Type) := Question → σ → Except Failure Bool × σ

/-- What a listener is asked and answers, by what it remembers when it is first asked. -/
def Responder.answers {σ : Type} (R : Responder σ) : σ → List Question → List Callback
  | _, [] => []
  | y, q :: qs => ⟨q, (R q y).1⟩ :: R.answers (R q y).2 qs

/-- What a listener remembers after some questions. -/
def Responder.recalls {σ : Type} (R : Responder σ) (y : σ) (qs : List Question) : σ :=
  qs.foldl (fun y q => (R q y).2) y

/-- The same listener in a session. -/
def Responder.listener {σ : Type} (R : Responder σ) : Listener (StateT σ Session) :=
  ⟨fun y => pure (R .capacity y), fun o y => pure (R (.offer o) y)⟩

/-- What may go wrong, by the number of answers so far: the faults of the repository change, or a commit
fails. -/
structure Weather where
  faults : Nat → Option Repository.Faults
  commits : Nat → Option Failure := fun _ => none
  honest : ∀ n fs, faults n = some fs → fs.Honest
  raises : ∀ n f, commits n = some f → f.isException

/-- A commit that does not fail raises nothing. -/
theorem Weather.raises_none (_ : Nat) (f : Failure) (h : none = some f) : f.isException := by
  cases h

/-- Nothing goes wrong. -/
def Weather.clear : Weather where
  faults _ := none
  honest _ _ h := by cases h
  raises := raises_none

/-- A call in any weather: the host, what its listener remembers, and what was answered. -/
structure Sitting (σ : Type) where
  host : Host
  memory : σ
  past : List Exchange := []

namespace Sitting

variable {σ : Type}

/-- The host in the weather of the moment. -/
def now (W : Weather) (x : Sitting σ) : Host :=
  match W.faults x.past.length with
  | some faults => { x.host with backend.faults := faults }
  | none => x.host

/-- The answer of the host, or of its listener. -/
def reply (R : Responder σ) (W : Weather) (t : Thread) (x : Sitting σ) :
    (e : Effect) → Option (e.Reply × Host × σ)
  | .hasCapacity => some ((R .capacity x.memory).1, x.now W, (R .capacity x.memory).2)
  | .offer o => some ((R (.offer o) x.memory).1, x.now W, (R (.offer o) x.memory).2)
  | .commit =>
    match W.commits x.past.length with
    | some f => some (.error f, x.now W, x.memory)
    | none => some ((x.now W).commit.1, (x.now W).commit.2, x.memory)
  | e => ((x.now W).answer t e).map fun (a, host) => (a, host, x.memory)

/-- Answers a request, and puts it on record. -/
def answer (R : Responder σ) (W : Weather) (t : Thread) (e : Effect) :
    StateT (Sitting σ) Option e.Reply := fun x =>
  (x.reply R W t e).map fun (a, host, memory) => (a, ⟨host, memory, x.past ++ [⟨e, a⟩]⟩)

end Sitting

/-- Runs an operation in some weather. There is no result if it waits forever. -/
def Operation.sit {σ α : Type} (R : Responder σ) (W : Weather) (t : Thread) (x : Operation α) :
    StateT (Sitting σ) Option α := x.run (Sitting.answer R W t)

section

variable {σ α : Type} {R : Responder σ} {W : Weather} {t u : Thread} {x x' : Sitting σ} {e : Effect}
  {a : e.Reply} {h h' : Host} {y z : σ}

theorem sit_perform {next : e.Reply → Operation α} :
    Operation.sit R W t (.perform e next) x =
      (x.reply R W t e).bind fun (a, host, memory) =>
        Operation.sit R W t (next a) ⟨host, memory, x.past ++ [⟨e, a⟩]⟩ := by
  change ((x.reply R W t e).map _).bind _ = _
  rw [Option.bind_map]
  rfl

theorem reply_other (hc : e.isCallback = false) (hm : e ≠ .commit) : x.reply R W t e =
    ((x.now W).answer t e).map fun (a, host) => (a, host, x.memory) := by
  cases e <;> first | exact absurd rfl hm | rfl | cases hc

theorem reply_commit : x.reply R W t .commit = some
    ((W.commits x.past.length).elim ((x.now W).commit.1, (x.now W).commit.2, x.memory)
      fun f => (.error f, x.now W, x.memory)) := by
  unfold Sitting.reply
  cases W.commits x.past.length <;> rfl

/-- What is answered in some weather is what may be answered to a thread. -/
theorem replies_of_reply (hb : e = .begin → (x.now W).isLocked = false)
    (h : x.reply R W t e = some (a, h', z)) : Replies t (x.now W) e a h' := by
  by_cases hm : e = .commit
  · subst hm
    rw [reply_commit] at h
    cases hw : W.commits x.past.length with
    | some f =>
      rw [hw] at h
      cases h
      exact .commitFails f (W.raises _ f hw)
    | none =>
      rw [hw] at h
      cases h
      exact .host rfl nofun rfl
  cases hc : e.isCallback with
  | true =>
    cases e with
    | hasCapacity =>
      cases h
      exact .hasCapacity _
    | offer =>
      cases h
      exact .offer _ _
    | _ => cases hc
  | false =>
    rw [reply_other hc hm] at h
    obtain ⟨⟨b, g⟩, hbg, heq⟩ := Option.map_eq_some_iff.1 h
    cases heq
    exact .host hc hb hbg

/-- Where nothing goes wrong, an operation does what it does in a session. -/
theorem sit_clear {rest : Operation α} : (rest.run (R.listener.answer t) x.memory) x.host =
    (rest.sit R .clear t x).map fun (a, x) => ((a, x.memory), x.host) := by
  induction rest generalizing x with
  | done a => rfl
  | perform e next ih =>
    rw [sit_perform, Option.map_bind]
    have hanswer : R.listener.answer t e x.memory x.host =
        (x.reply R .clear t e).map fun (a, host, memory) => ((a, memory), host) := by
      cases hc : e.isCallback with
      | true => cases e <;> first | rfl | cases hc
      | false =>
        by_cases hm : e = .commit
        · subst hm
          rfl
        have hl : R.listener.answer t e = liftM (Host.reply t e) := by
          cases e <;> first | rfl | cases hc
        rw [hl, reply_other hc hm, Option.map_map]
        change (x.host.answer t e).bind _ = Option.map _ (x.host.answer t e)
        cases x.host.answer t e <;> rfl
    change (R.listener.answer t e x.memory x.host).bind
      (fun p => (next p.1.1).run (R.listener.answer t) p.1.2 p.2) = _
    rw [hanswer, Option.bind_map]
    congr 1
    funext ⟨a, host, memory⟩
    exact ih a (x := ⟨host, memory, x.past ++ [⟨e, a⟩]⟩)

/-- A pass of a subscriber is the innermost call of a thread and the only pass of the subscriber, and
there is no transaction but its own. -/
structure Seated (k : SubscriberKey) (t : Thread) (limit : Nat) (mode : Mode) (below : List Frame)
    (n : Nat) (past : List Exchange)
    (rest : Operation (Except Failure (Request.recoverNext k limit mode).Result)) (s : System) :
    Prop where
  sound : s.Sound
  stack : s.stack t = ⟨n, .recoverNext k limit mode, past, rest⟩ :: below
  elsewhere : ∀ u, u ≠ t → ∀ g ∈ s.stack u, g.request.batches k = false
  beneath : ∀ g ∈ below, g.request.batches k = false
  locked : s.host.isLocked ↔ (Frame.mk n (.recoverNext k limit mode) past rest).stage.phase ≠ .closed

/-- No call is made, and no other thread moves. -/
def Inward (t : Thread) (tr : List Event) : Prop :=
  ∀ ev ∈ tr, ev.call? = none ∧ (ev.thread? = none ∨ ev.thread? = some t)

variable {k : SubscriberKey} {limit n : Nat} {mode : Mode} {below : List Frame} {past : List Exchange}
  {rest : Operation (Except Failure (Request.recoverNext k limit mode).Result)} {s s' : System}
  {next : e.Reply → Operation (Except Failure (Request.recoverNext k limit mode).Result)}

theorem inward_nil : Inward t [] := by simp [Inward]

theorem inward_append {tr tr' : List Event} (h : Inward t tr) (h' : Inward t tr') :
    Inward t (tr ++ tr') := fun ev hev => (List.mem_append.1 hev).elim (h ev) (h' ev)

theorem seated_now (h : Seated k t limit mode below n past rest s) (hx : x.host = s.host) :
    ∃ tr, Run Step s tr { s with host := x.now W } ∧ Inward t tr ∧
      Seated k t limit mode below n past rest { s with host := x.now W } := by
  unfold Sitting.now
  rw [hx]
  cases hw : W.faults x.past.length with
  | none => exact ⟨[], .nil s, inward_nil, h⟩
  | some faults =>
    have hstep : Step s .disturb { s with host.backend.faults := faults } :=
      .disturb (W.honest _ _ hw)
    refine ⟨[.disturb], .snoc (.nil s) hstep, by simp [Inward, Event.call?, Event.thread?], ?_⟩
    exact ⟨sound_step h.sound hstep, h.stack, h.elsewhere, h.beneath, h.locked⟩

/-- Nobody holds the cursor of a subscriber whose only pass has no lease. -/
theorem seated_free (h : Seated k t limit mode below n past rest s)
    (hl : (Frame.mk n (.recoverNext k limit mode) past rest).stage.lease = none) :
    s.host.cursors.Free k := by
  intro i hi
  cases hh : (s.host.cursors.slot i).holder with
  | none => rfl
  | some u =>
    obtain ⟨f, hf, hlease⟩ := h.sound.held u i hh
    obtain ⟨-, -, j, hj, hmap⟩ := (h.sound.frames u f hf).leased i hlease
    obtain rfl : k = j := hmap k hi
    by_cases hu : u = t
    · subst hu
      rw [h.stack] at hf
      rcases List.mem_cons.1 hf with rfl | hf
      · cases hl.symm.trans hlease
      · exact absurd hj (by simp [h.beneath f hf])
    · exact absurd hj (by simp [h.elsewhere u hu f hf])

theorem seated_permits (h : Seated k t limit mode below n past (.perform e next) s) :
    (Frame.mk n (.recoverNext k limit mode) past (.perform e next)).stage.Permits s.host.destination
      (.recoverNext k limit mode) e :=
  have hf : (Frame.mk n (.recoverNext k limit mode) past (.perform e next)).Sound t s.host :=
    h.sound.frames t _ (mem_top h.stack)
  hf.follows.1

/-- A pass waits for nothing but its listener. -/
theorem seated_answer (h : Seated k t limit mode below n past (.perform e next) s)
    (hc : e.isCallback = false) : (s.host.answer t e).isSome := by
  have hperm := seated_permits h
  cases e with
  | acquire j =>
    have hb : j = k := (by simpa [Request.batches] using hperm.2.2.2 : k = j).symm
    subst hb
    obtain ⟨⟨b, c⟩, hcall⟩ := Option.isSome_iff_exists.1
      (Cache.acquire_free (t := t) h.sound.cursors (seated_free h hperm.2.1))
    obtain ⟨i, rfl, -⟩ := Cache.acquire_spec h.sound.cursors hcall
    simp [Host.answer, Host.onCursors, hcall]
  | reset | evict | peek => exact absurd hperm.2 (by simp)
  | hasCapacity | offer => cases hc
  | _ => rfl

theorem seated_reply (h : Seated k t limit mode below n past (.perform e next)
    { s with host := x.now W }) : ∃ a h' z, x.reply R W t e = some (a, h', z) := by
  by_cases hm : e = .commit
  · subst hm
    exact ⟨_, _, _, reply_commit⟩
  cases hc : e.isCallback with
  | true => cases e <;> first | exact ⟨_, _, _, rfl⟩ | cases hc
  | false =>
    obtain ⟨⟨a, h'⟩, ha⟩ := Option.isSome_iff_exists.1 (seated_answer h hc)
    rw [reply_other hc hm, show (x.now W).answer t e = some (a, h') from ha]
    exact ⟨a, h', x.memory, rfl⟩

/-- After an answer the pass goes on. -/
theorem seated_step (h : Seated k t limit mode below n past (.perform e next) s)
    (hr : Replies t s.host e a h') :
    Step s (.ask t n (.recoverNext k limit mode) ⟨e, a⟩) { s.setStack t
      (⟨n, .recoverNext k limit mode, past ++ [⟨e, a⟩], next a⟩ :: below) with host := h' } ∧
    Seated k t limit mode below n (past ++ [⟨e, a⟩]) (next a) { s.setStack t
      (⟨n, .recoverNext k limit mode, past ++ [⟨e, a⟩], next a⟩ :: below) with host := h' } := by
  have hstep : Step s _ _ := .ask h.stack hr
  refine ⟨hstep, sound_step h.sound hstep, by simp [System.setStack], fun u hu g hg => ?_, h.beneath, ?_⟩
  · exact h.elsewhere u hu g (by simpa [System.setStack, hu] using hg)
  · rw [stage_snoc, show Host.isLocked _ = _ from isLocked_replies hr]
    exact lock_next (seated_permits h) h.locked

/-- A pass in any weather comes to its end, by steps that threads may take. -/
theorem sit_run (h : Seated k t limit mode below n past rest s) (R : Responder σ) (W : Weather) (y : σ) :
    ∃ a x tr s', rest.sit R W t ⟨s.host, y, past⟩ = some (a, x) ∧ Run Step s tr s' ∧ Inward t tr ∧
      s'.host = x.host ∧
      s'.stack t = ⟨n, .recoverNext k limit mode, x.past, .done a⟩ :: below := by
  induction rest generalizing s past y with
  | done a => exact ⟨a, _, [], s, rfl, .nil s, inward_nil, rfl, h.stack⟩
  | perform e next ih =>
    obtain ⟨tr₀, hrun₀, hin₀, h₀⟩ := seated_now (x := ⟨s.host, y, past⟩) (W := W) h rfl
    obtain ⟨a, h', z, hreply⟩ := seated_reply (R := R) h₀
    have hbegin : e = .begin → (Sitting.now W ⟨s.host, y, past⟩).isLocked = false := by
      rintro rfl
      exact Bool.eq_false_iff.2 fun hl => h₀.locked.1 hl (seated_permits h₀)
    obtain ⟨hstep, h₁⟩ := seated_step h₀ (replies_of_reply hbegin hreply)
    obtain ⟨b, x, tr, s', hsit, hrun, hin, hhost, hstack⟩ := ih a h₁ z
    refine ⟨b, x, tr₀ ++ _ :: tr, s', ?_, run_trans hrun₀ (System.run_cons hstep hrun), ?_, hhost,
      hstack⟩
    · rw [sit_perform, hreply]
      exact hsit
    · exact inward_append hin₀ (List.forall_mem_cons.2 ⟨⟨rfl, Or.inr rfl⟩, hin⟩)

/-- A thread may make a pass of a subscriber at once: its own listener waits, if it has one, and there is
neither a transaction nor another pass of the subscriber. -/
structure System.Ready (s : System) (k : SubscriberKey) (t : Thread) : Prop where
  calls : ∀ f ∈ (s.stack t).head?, f.atListener
  unlocked : s.host.backend.repository.hasTransaction = false
  only : ∀ u, ∀ g ∈ s.stack u, g.request.batches k = false

/-- A thread that alone has used a store, and is done, may make any pass at once. -/
theorem ready_of_alone {b : System} {tr : List Event} (hb : b.Opened) (h : Run Step b tr s)
    (hown : ∀ ev ∈ tr, ev.thread? = none ∨ ev.thread? = some t) (hdone : s.stack t = [])
    (hn : s.host.backend.repository.hasTransaction = false) : s.Ready k t := by
  have halone := (serial_run h (fun u _ => hb.stack u) hown).2
  have hidle : ∀ u, s.stack u = [] := fun u => if hu : u = t then hu ▸ hdone else halone u hu
  exact ⟨by simp [hidle], hn, by simp [hidle]⟩

/-- A pass that may be made at once is made, and is over in any weather. -/
theorem sit_passing (hs : s.Sound) (hr : s.Ready k t) (limit : Nat) (mode : Mode) (R : Responder σ)
    (W : Weather) (y : σ) :
    ∃ (a : Except Failure Nat) (x : Sitting σ) (tr : List Event) (s' : System),
      (recoverNext s.host.destination k limit mode).run.sit R W t ⟨s.host, y, []⟩ = some (a, x) ∧
      Passing k t limit mode s tr s' x.past a ∧ calls tr = [] ∧ s'.host = x.host := by
  have hstart : Step s (.start t s.count (.recoverNext k limit mode)) _ :=
    .start (.recoverNext k limit mode) hr.calls
  have hseated : Seated k t limit mode (s.stack t) s.count []
      (Request.operation s.host.destination (.recoverNext k limit mode)) _ :=
    { sound := sound_step hs hstart
      stack := by simp [System.setStack]
      elsewhere := fun u hu g hg => hr.only u g (by simpa [System.setStack, hu] using hg)
      beneath := hr.only t
      locked := by
        refine iff_of_false ?_ (not_not_intro rfl)
        exact Bool.eq_false_iff.1 hr.unlocked }
  obtain ⟨a, x, tr, s', hsit, hrun, hin, hhost, hstack⟩ := sit_run hseated R W y
  have hcalls : calls tr = [] := List.filterMap_eq_nil_iff.2 fun ev hev => (hin ev hev).1
  refine ⟨a, x, tr, s'.setStack t (s.stack t), hsit, ?_, hcalls, hhost⟩
  exact ⟨hr.only, fun ev hev => (hin ev hev).2, by simp [hcalls], _, s', hstart, hrun, hstack,
    .finish hstack⟩

/-- A listener is on record with its own answers. -/
theorem sit_answers {a : α} {rest : Operation α} (h : rest.sit R W t x = some (a, x')) :
    ∃ qs, (minutes x'.past).callbacks = (minutes x.past).callbacks ++ R.answers x.memory qs ∧
      x'.memory = R.recalls x.memory qs := by
  induction rest generalizing x with
  | done b =>
    cases h
    exact ⟨[], (List.append_nil _).symm, rfl⟩
  | perform e next ih =>
    rw [sit_perform] at h
    obtain ⟨⟨b, host, memory⟩, hreply, hrest⟩ := Option.bind_eq_some_iff.1 h
    obtain ⟨qs, hcallbacks, hmemory⟩ := ih b hrest
    -- What a listener is asked is asked before the rest.
    have hasked : ∀ q, memory = (R q x.memory).2 → (minutes (x.past ++ [⟨e, b⟩])).callbacks =
        (minutes x.past).callbacks ++ [⟨q, (R q x.memory).1⟩] → ∃ qs,
        (minutes x'.past).callbacks = (minutes x.past).callbacks ++ R.answers x.memory qs ∧
          x'.memory = R.recalls x.memory qs := by
      rintro q rfl hq
      refine ⟨q :: qs, ?_, hmemory⟩
      rw [hcallbacks, hq, List.append_assoc]
      rfl
    cases hc : e.isCallback with
    | true =>
      cases e with
      | hasCapacity =>
        cases hreply
        exact hasked .capacity rfl (by rw [minutes_snoc]; rfl)
      | offer o =>
        cases hreply
        exact hasked (.offer o) rfl (by rw [minutes_snoc]; rfl)
      | _ => cases hc
    | false =>
      have hsame : memory = x.memory := by
        by_cases hm : e = .commit
        · subst hm
          rw [reply_commit] at hreply
          cases hw : W.commits x.past.length <;> (rw [hw] at hreply; cases hreply; rfl)
        · rw [reply_other hc hm] at hreply
          obtain ⟨p, -, hp⟩ := Option.map_eq_some_iff.1 hreply
          cases hp
          rfl
      refine ⟨qs, ?_, hsame ▸ hmemory⟩
      rw [hcallbacks, minutes_snoc, Minutes.next_asked hc, hsame]

end

end DurableTopic.Store

import DurableTopic.Proofs.System
/-! Runs that are computed. Someone chooses what threads call and what listeners answer, and a
thread that may go on does so until it waits or is done. -/
namespace DurableTopic.Store

open Cursor (Thread)

/-- More steps than a call takes without its listener. -/
def patience : Nat := 64

/-- What a thread calls, and for how many steps it goes on, or what its listener answers. -/
inductive Choice where
  | call (t : Thread) (r : Request) (n : Nat := patience)
  | hear (t : Thread) (a : Except Failure Bool)
  | resume (t : Thread)

/-- A retroactive subscriber, and a pass of it. -/
def replayed : SubscriberKey := ⟨"A", none⟩

def replaying : Request := .recoverNext replayed 5 .reference

namespace System

/-- A store in memory that holds nothing yet. -/
def fresh (d : String) : System where
  host := { destination := d, requested := d, backend := { repository := .memory ∅ none } }

theorem opened_fresh (d : String) : (fresh d).Opened where
  repository := ⟨⟨Repository.Memory.topic_sound_empty, by simp⟩, Repository.honest_none⟩
  closed := rfl
  cursors := rfl
  stack _ := rfl

/-- A message that is named and empty. -/
def note (d name : String) : Message := { id := some { value := name }, destination := d }

/-- Two messages are published. -/
def twoNotes : List Choice :=
  [.call "main" (.publish (note "orders" "m1")), .call "main" (.publish (note "orders" "m2"))]

/-- The next thing that a thread does by itself. -/
def go (t : Thread) (s : System) : Option (Event × System) :=
  match s.stack t with
  | [] => none
  | ⟨n, _, _, .done _⟩ :: below => some (.finish t n, s.setStack t below)
  | ⟨n, r, past, .perform e next⟩ :: below =>
    if e.isCallback || e = .begin && s.host.backend.repository.hasTransaction then none
    else (s.host.answer t e).map fun (a, host) =>
      (.ask t n r ⟨e, a⟩, { s.setStack t (⟨n, r, past ++ [⟨e, a⟩], next a⟩ :: below) with host })

/-- A thread goes on, for at most so many steps. -/
def goOn (t : Thread) : Nat → System → List Event × System
  | 0, s => ([], s)
  | n + 1, s =>
    match s.go t with
    | none => ([], s)
    | some (e, s) => let (tr, s) := goOn t n s; (e :: tr, s)

/-- A listener answers a thread. -/
def hear (t : Thread) (a : Except Failure Bool) (s : System) : Option (Event × System) :=
  match s.stack t with
  | ⟨n, r, past, .perform .hasCapacity next⟩ :: below =>
    some (.ask t n r ⟨.hasCapacity, a⟩,
      s.setStack t (⟨n, r, past ++ [⟨.hasCapacity, a⟩], next a⟩ :: below))
  | ⟨n, r, past, .perform (.offer o) next⟩ :: below =>
    some (.ask t n r ⟨.offer o, a⟩,
      s.setStack t (⟨n, r, past ++ [⟨.offer o, a⟩], next a⟩ :: below))
  | _ => none

/-- A thread makes a call, unless it is in the middle of one. -/
def call (t : Thread) (r : Request) (s : System) : Option (Event × System) :=
  if (s.stack t).head?.all (·.atListener) then
    some (.start t s.count r, { s.setStack t
      (⟨s.count, r, [], r.operation s.host.destination⟩ :: s.stack t) with count := s.count + 1 })
  else none

/-- What follows from a choice. A choice that is not possible changes nothing. -/
def choose (s : System) : Choice → List Event × System
  | .call t r n => (s.call t r).elim ([], s) (followedBy t n)
  | .hear t a => (s.hear t a).elim ([], s) (followedBy t patience)
  | .resume t => s.goOn t patience
where
  followedBy (t : Thread) (n : Nat) : Event × System → List Event × System
  | (e, s) => (e :: (s.goOn t n).1, (s.goOn t n).2)

/-- What follows from choices, one after the other. -/
def play : List Choice → System → List Event × System
  | [], s => ([], s)
  | c :: cs, s => ((s.choose c).1 ++ ((s.choose c).2.play cs).1, ((s.choose c).2.play cs).2)

variable {s s' : System} {t : Thread} {e : Event} {c : Choice}

theorem run_cons {step : System → Event → System → Prop} {s'' : System} {tr : List Event}
    (h : step s e s') (hr : Run step s' tr s'') : Run step s (e :: tr) s'' :=
  run_trans ((Run.nil s).snoc h) hr

theorem go_step (h : s.go t = some (e, s')) : Step s e s' := by
  unfold go at h
  split at h
  · cases h
  · rename_i hst
    cases h
    exact .finish hst
  · rename_i n r past e next below hst
    split at h
    · cases h
    · rename_i hfree
      obtain ⟨⟨a, host⟩, ha, heq⟩ := Option.map_eq_some_iff.1 h
      cases heq
      simp only [Bool.or_eq_true, Bool.and_eq_true, decide_eq_true_eq, not_or, not_and,
        Bool.not_eq_true] at hfree
      exact .ask hst (.host hfree.1 hfree.2 ha)

theorem goOn_run (n : Nat) : Run Step s (s.goOn t n).1 (s.goOn t n).2 := by
  induction n generalizing s with
  | zero => exact .nil s
  | succ n ih =>
    unfold goOn
    split
    · exact .nil s
    · rename_i h
      exact run_cons (go_step h) ih

theorem hear_step {a : Except Failure Bool} (h : s.hear t a = some (e, s')) : Step s e s' := by
  unfold hear at h
  split at h
  · rename_i hst
    cases h
    exact .ask hst (.hasCapacity a)
  · rename_i o _ _ hst
    cases h
    exact .ask hst (.offer o a)
  · cases h

theorem call_step {r : Request} (h : s.call t r = some (e, s')) : Step s e s' := by
  unfold call at h
  split at h
  · rename_i hl
    cases h
    exact .start r (by simpa [Option.all_eq_true] using hl)
  · cases h

theorem followedBy_run {x : Option (Event × System)} {n : Nat}
    (h : ∀ e s', x = some (e, s') → Step s e s') :
    Run Step s (x.elim ([], s) (choose.followedBy t n)).1
      (x.elim ([], s) (choose.followedBy t n)).2 := by
  cases x with
  | none => exact .nil s
  | some x => exact run_cons (h x.1 x.2 rfl) (goOn_run n)

theorem choose_run : Run Step s (s.choose c).1 (s.choose c).2 := by
  cases c with
  | call t r n => exact followedBy_run fun _ _ h => call_step h
  | hear t a => exact followedBy_run fun _ _ h => hear_step h
  | resume t => exact goOn_run patience

/-- What is computed is what may happen. -/
theorem play_run (cs : List Choice) : Run Step s (s.play cs).1 (s.play cs).2 := by
  induction cs generalizing s with
  | nil => exact .nil s
  | cons c cs ih => exact run_trans choose_run ih

end System
end DurableTopic.Store

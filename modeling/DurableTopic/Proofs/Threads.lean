import DurableTopic.Cursor.Cache
/-! Threads that share a cache of cursors, step by step: other threads may move between any two
steps of a call. What is done through a lease, its release included, is one step. -/
namespace DurableTopic.Cursor

/-- A call that a thread is in: what it asked for, and where the call stands. -/
structure Pending where
  request : Call
  place : Call
  deriving Repr, DecidableEq

/-- A lease that is not given back. Leases are numbered in the order in which they are given. -/
structure Grant where
  number : Nat
  thread : Thread
  key : SubscriberKey
  slot : Nat
  deriving Repr, DecidableEq

/-- A cache and the threads that share it. -/
structure Threads where
  cache : Cache := {}
  /-- The subscriber that each slot was made for. -/
  keys : List SubscriberKey := []
  calls : Thread → Option Pending := fun _ => none
  grants : List Grant := []
  count : Nat := 0

/-- What a thread may ask of a cache. -/
def Call.isRequest : Call → Bool
  | .acquire _ | .reset _ | .evict _ | .peek _ => true
  | _ => false

/-- The subscribers that a step of a call makes a slot for. -/
def Call.makes (c : Cache) : Call → List SubscriberKey
  | .acquire k => if (c.mapped.find? k).isNone then [k] else []
  | _ => []

inductive Event where
  | begun (t : Thread) (request : Call)
  | moved (t : Thread) (request place : Call)
  | answered (t : Thread) (request place : Call) (a : Answer)
  | stored (t : Thread) (g : Grant) (mark : Watermark)
  | looked (t : Thread) (g : Grant) (cursor : Option Watermark)
  | released (g : Grant)
  deriving Repr, DecidableEq

namespace Event

/-- A watermark that is shown for a subscriber, to whoever peeks, is given a lease or looks through
one, and the slot that it comes from. -/
def shows (k : SubscriberKey) : Event → Option (Nat × Watermark)
  | .answered _ (.peek j) (.peekSlot i) (.shown (some w)) => if j = k then some (i, w) else none
  | .answered _ (.acquire j) _ (.leased i (some w)) => if j = k then some (i, w) else none
  | .looked _ g (some w) => if g.key = k then some (g.slot, w) else none
  | _ => none

/-- The lease that is looked through. -/
def reader : Event → Option Grant
  | .looked _ g _ => some g
  | _ => none

/-- The slot that an event may change. -/
def slot : Event → Option Nat
  | .answered _ _ _ (.leased i _) | .answered _ _ (.resetSlot i) _ | .moved _ _ (.evictSlot _ i) =>
    some i
  | .stored _ g _ | .released g => some g.slot
  | _ => none

end Event

namespace Threads

def setCall (s : Threads) (t : Thread) (p : Option Pending) : Threads :=
  { s with calls := fun u => if u = t then p else s.calls u }

/-- A lease that a thread is given is its own until it is released. -/
def grant (s : Threads) (t : Thread) : Call → Answer → Threads
  | .acquire k, .leased i _ =>
    { s with grants := ⟨s.count, t, k, i⟩ :: s.grants, count := s.count + 1 }
  | _, _ => s

end Threads

/-- One thing happens: a thread makes a call or takes a step of one, a lease is used, or the thread
that was given a lease releases it. -/
inductive Step : Threads → Event → Threads → Prop where
  | begin {s : Threads} {t : Thread} {r : Call} (hidle : s.calls t = none) (hr : r.isRequest) :
      Step s (.begun t r) (s.setCall t (some ⟨r, r⟩))
  | move {s : Threads} {t : Thread} {r p p' : Call} {c : Cache} (hp : s.calls t = some ⟨r, p⟩)
      (hc : s.cache.step t p = .next c p') :
      Step s (.moved t r p)
        { s.setCall t (some ⟨r, p'⟩) with cache := c, keys := s.keys ++ p.makes s.cache }
  | answer {s : Threads} {t : Thread} {r p : Call} {c : Cache} {a : Answer}
      (hp : s.calls t = some ⟨r, p⟩) (hc : s.cache.step t p = .finished c a) :
      Step s (.answered t r p a) { (s.setCall t none).grant t r a with cache := c }
  | store {s : Threads} {t : Thread} {g : Grant} {w : Watermark} (hidle : s.calls t = none)
      (hg : g ∈ s.grants) : Step s (.stored t g w) { s with cache := s.cache.keep g.slot w }
  | look {s : Threads} {t : Thread} {g : Grant} (hidle : s.calls t = none) (hg : g ∈ s.grants) :
      Step s (.looked t g (s.cache.slot g.slot).watermark) s
  | release {s : Threads} {g : Grant} (hidle : s.calls g.thread = none) (hg : g ∈ s.grants) :
      Step s (.released g)
        { s with cache := s.cache.release g.slot, grants := s.grants.filter (· ≠ g) }

/-- Things that happen, from left to right. -/
inductive Run : Threads → List Event → Threads → Prop where
  | nil (s : Threads) : Run s [] s
  | snoc {s s' s'' : Threads} {tr : List Event} {e : Event} (h : Run s tr s') (he : Step s' e s'') :
      Run s (tr ++ [e]) s''

/-- What is done next: a thread calls or goes on with its call, for so many steps, or a lease is
used. -/
inductive Choice where
  | call (t : Thread) (r : Call) (n : Nat := Cache.stepsAlone)
  | goOn (t : Thread) (n : Nat := Cache.stepsAlone)
  | store (lease : Nat) (w : Watermark)
  | look (lease : Nat)
  | release (lease : Nat)

namespace Threads

/-- The next step of a thread's call. -/
def go (t : Thread) (s : Threads) : Option (Event × Threads) :=
  match s.calls t with
  | none => none
  | some ⟨r, p⟩ =>
    match s.cache.step t p with
    | .next c p' => some (.moved t r p,
        { s.setCall t (some ⟨r, p'⟩) with cache := c, keys := s.keys ++ p.makes s.cache })
    | .finished c a => some (.answered t r p a, { (s.setCall t none).grant t r a with cache := c })
    | .blocked => none

/-- A thread goes on, for at most so many steps. -/
def goOn (t : Thread) : Nat → Threads → List Event × Threads
  | 0, s => ([], s)
  | n + 1, s =>
    match s.go t with
    | none => ([], s)
    | some (e, s) => let (tr, s) := goOn t n s; (e :: tr, s)

/-- Uses a lease, unless its thread is in the middle of a call. -/
def through (s : Threads) (n : Nat) (f : Grant → Event × Threads) : List Event × Threads :=
  match s.grants.find? (·.number = n) with
  | some g => if s.calls g.thread = none then ([(f g).1], (f g).2) else ([], s)
  | none => ([], s)

/-- A thread makes a call, unless it is in the middle of one. -/
def enter (s : Threads) (t : Thread) (r : Call) (n : Nat) : List Event × Threads :=
  if s.calls t = none ∧ r.isRequest then
    let s := s.setCall t (some ⟨r, r⟩)
    (.begun t r :: (s.goOn t n).1, (s.goOn t n).2)
  else ([], s)

/-- What follows from a choice. A choice that is not possible changes nothing. -/
def choose (s : Threads) : Choice → List Event × Threads
  | .call t r n => s.enter t r n
  | .goOn t n => s.goOn t n
  | .store n w =>
    s.through n fun g => (.stored g.thread g w, { s with cache := s.cache.keep g.slot w })
  | .look n => s.through n fun g => (.looked g.thread g (s.cache.slot g.slot).watermark, s)
  | .release n => s.through n fun g => (.released g,
      { s with cache := s.cache.release g.slot, grants := s.grants.filter (· ≠ g) })

/-- What follows from choices, one after the other. -/
def play : List Choice → Threads → List Event × Threads
  | [], s => ([], s)
  | c :: cs, s => ((s.choose c).1 ++ ((s.choose c).2.play cs).1, ((s.choose c).2.play cs).2)

variable {s s' s'' : Threads} {t : Thread} {e : Event} {tr tr' : List Event} {c : Choice}

theorem run_trans (h : Run s tr s') (h' : Run s' tr' s'') : Run s (tr ++ tr') s'' := by
  induction h' with
  | nil => simpa using h
  | snoc _ he ih => simpa [← List.append_assoc] using ih.snoc he

theorem run_cons (he : Step s e s') (h : Run s' tr s'') : Run s (e :: tr) s'' :=
  run_trans ((Run.nil s).snoc he) h

theorem go_step (h : s.go t = some (e, s')) : Step s e s' := by
  unfold go at h
  split at h
  · cases h
  · rename_i hp
    split at h
    · rename_i hc
      cases h
      exact .move hp hc
    · rename_i hc
      cases h
      exact .answer hp hc
    · cases h

theorem goOn_run (n : Nat) : Run s (s.goOn t n).1 (s.goOn t n).2 := by
  induction n generalizing s with
  | zero => exact .nil s
  | succ n ih =>
    unfold goOn
    split
    · exact .nil s
    · rename_i h
      exact run_cons (go_step h) ih

theorem through_run {n : Nat} {f : Grant → Event × Threads}
    (h : ∀ g ∈ s.grants, s.calls g.thread = none → Step s (f g).1 (f g).2) :
    Run s (s.through n f).1 (s.through n f).2 := by
  unfold through
  split
  · rename_i g hg
    split
    · rename_i hidle
      exact run_cons (h g (List.mem_of_find?_eq_some hg) hidle) (.nil _)
    · exact .nil s
  · exact .nil s

theorem enter_run {r : Call} {n : Nat} : Run s (s.enter t r n).1 (s.enter t r n).2 := by
  unfold enter
  split
  · rename_i h
    exact run_cons (.begin h.1 h.2) (goOn_run n)
  · exact .nil s

theorem choose_run : Run s (s.choose c).1 (s.choose c).2 := by
  cases c with
  | call => exact enter_run
  | goOn t n => exact goOn_run n
  | store => exact through_run fun _ hg hidle => .store hidle hg
  | look => exact through_run fun _ hg hidle => .look hidle hg
  | release => exact through_run fun _ hg hidle => .release hidle hg

/-- What is computed is what may happen. -/
theorem play_run (cs : List Choice) : Run s (s.play cs).1 (s.play cs).2 := by
  induction cs generalizing s with
  | nil => exact .nil s
  | cons c cs ih => exact run_trans choose_run ih

end Threads
end DurableTopic.Cursor

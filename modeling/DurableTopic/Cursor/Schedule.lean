import DurableTopic.Cursor.Cache
/-! Threads that share a cache of cursors. Each works through its tasks in order; a task that waits
for a lease goes on as soon as the lease is released. -/

namespace DurableTopic.Cursor

/-- What a thread is told to do. Leases have names. -/
inductive Task where
  | acquire (key : SubscriberKey) (lease : String)
  | store (lease : String) (mark : Watermark)
  | current (lease : String)
  | release (lease : String)
  /-- Hand a lease over to another owner. The lease itself does not change. -/
  | move (lease : String)
  | reset (key : SubscriberKey)
  | evict (key : SubscriberKey)
  | peek (key : SubscriberKey)
  | size
  deriving Repr, DecidableEq, Inhabited

/-- What a task answers. -/
inductive Outcome where
  | leased (cursor : Option Watermark)
  | cursor (cursor : Option Watermark)
  | size (n : Nat)
  | done
  | noLease (name : String)
  deriving Repr, DecidableEq, Inhabited

/-- A thread with the tasks that are left and the answers to those that are done. The first task may
have begun, and then stands at some step of its call. -/
structure Worker where
  tasks : List Task := []
  begun : Option Call := none
  outcomes : List Outcome := []
  deriving Repr, DecidableEq, Inhabited

/-- Threads, the cache that they share, and the leases by name. -/
structure Schedule where
  cache : Cache := {}
  leases : Assoc String Nat := ∅
  workers : Assoc Thread Worker := ∅
  deriving Repr, DecidableEq, Inhabited

namespace Schedule

def withLease (s : Schedule) (name : String) (f : Nat → Outcome × Schedule) :
    Outcome × Schedule :=
  match s.leases.find? name with
  | some i => f i
  | none => (.noLease name, s)

/-- The call that a task makes on the cache, or what it does without one. -/
def start (s : Schedule) : Task → Call ⊕ (Outcome × Schedule)
  | .acquire k _ => .inl (.acquire k)
  | .reset k => .inl (.reset k)
  | .evict k => .inl (.evict k)
  | .peek k => .inl (.peek k)
  | .store l w => .inr (s.withLease l fun i => (.done, { s with cache := s.cache.keep i w }))
  | .current l => .inr (s.withLease l fun i => (.cursor (s.cache.slot i).watermark, s))
  | .release l =>
    .inr (s.withLease l fun i =>
      (.done, { s with cache := s.cache.release i, leases := s.leases.erase l }))
  | .move l => .inr (s.withLease l fun _ => (.done, s))
  | .size => .inr (.size s.cache.size, s)

/-- Gives a lease a name. A lease that had the name is released. -/
def nameLease (s : Schedule) (name : String) (i : Nat) : Schedule :=
  { s with
    cache := (s.leases.find? name).elim s.cache s.cache.release
    leases := s.leases.put name i }

/-- What a task makes of the answer to its call. -/
def conclude (s : Schedule) (task : Task) (a : Answer) : Outcome × Schedule :=
  match task, a with
  | .acquire _ l, .leased i w => (.leased w, s.nameLease l i)
  | _, .shown w => (.cursor w, s)
  | _, _ => (.done, s)

def worker (s : Schedule) (t : Thread) : Worker := (s.workers.find? t).getD {}

def setWorker (s : Schedule) (t : Thread) (w : Worker) : Schedule :=
  { s with workers := s.workers.put t w }

/-- Notes the answer to the first task of a thread. -/
def finish (t : Thread) (rest : List Task) (r : Outcome × Schedule) : Schedule :=
  r.2.setWorker t ⟨rest, none, (r.2.worker t).outcomes ++ [r.1]⟩

/-- Goes on with the first task of a thread, as far as it gets. -/
def turn (s : Schedule) (t : Thread) : Schedule :=
  let w := s.worker t
  match w.tasks with
  | [] => s
  | task :: rest =>
    match w.begun.elim (s.start task) Sum.inl with
    | .inr r => finish t rest r
    | .inl call =>
      match s.cache.advance t Cache.stepsAlone call with
      | .finished c a => finish t rest ({ s with cache := c }.conclude task a)
      | .next c call => { s with cache := c }.setWorker t { w with begun := some call }
      | .blocked => s

def left (s : Schedule) : Nat := s.workers.values.foldl (fun n w => n + w.tasks.length) 0

/-- Gives every thread a turn, `n` times. -/
def rounds : Nat → Schedule → Schedule
  | 0, s => s
  | n + 1, s => rounds n ((s.workers.pairs.map (·.1)).foldl turn s)

/-- Lets all threads go on until each has done its tasks or waits. -/
def settle (s : Schedule) : Schedule := rounds (s.left + 1) s

/-- Gives a thread one more task and lets all threads go on. -/
def post (s : Schedule) (t : Thread) (task : Task) : Schedule :=
  let w := s.worker t
  (s.setWorker t { w with tasks := w.tasks ++ [task] }).settle

/-- Takes the answers of a thread. There are none while it waits. -/
def collect (s : Schedule) (t : Thread) : Option (List Outcome × Schedule) :=
  let w := s.worker t
  if w.tasks.isEmpty then some (w.outcomes, s.setWorker t { w with outcomes := [] }) else none

/-- Gives a thread a task and waits for its answer. -/
def ask (s : Schedule) (t : Thread) (task : Task) : Option (Outcome × Schedule) := do
  let s := s.post t task
  let w := s.worker t
  guard w.tasks.isEmpty
  let answer ← w.outcomes.getLast?
  return (answer, s.setWorker t { w with outcomes := w.outcomes.dropLast })

end Schedule
end DurableTopic.Cursor

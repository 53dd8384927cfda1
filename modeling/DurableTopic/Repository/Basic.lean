import DurableTopic.Repository.Embedded
import DurableTopic.Repository.Memory
/-! A repository of topics: a backend, and the one transaction that may be open on it. -/

namespace DurableTopic

/-- A repository. A transaction object stays until it is closed, also when it is finished. -/
inductive Repository where
  | memory (committed : Repository.Memory.Topics)
      (transaction : Option Repository.Memory.Transaction)
  | embedded (connection : Repository.Embedded.Connection)
      (transaction : Option Repository.Embedded.Handle)
  deriving Repr, DecidableEq

namespace Repository

def inMemory : Repository := .memory ∅ none

/-- A repository over a new database, in a file or of its own. -/
def onDatabase (file : Option Embedded.Path) : Repository := .embedded { file } none

instance : Inhabited Repository := ⟨inMemory⟩

/-- What is said when there is no transaction. -/
def noTransaction : Failure := .logic "no transaction"

def hasTransaction : Repository → Bool
  | memory _ t => t.isSome
  | embedded _ t => t.isSome

def isCommitted : Repository → Bool
  | memory _ t => t.any (·.phase = .committed)
  | embedded _ t => t.any (·.committed)

def begin : Repository → Except Failure Unit × Repository
  | memory c _ => (.ok (), memory c (some {}))
  | embedded c _ =>
    match Embedded.begin c with
    | (.ok h, c) => (.ok (), embedded c (some h))
    | (.error f, c) => (.error f, embedded c none)

def perform (call : Call) : Repository → call.Reply × Repository
  | memory c (some t) => let (r, t) := t.perform c call; (r, memory c (some t))
  | embedded c (some h) => let (r, c) := Embedded.perform c call; (r, embedded c (some h))
  | r => (call.failed noTransaction, r)

def commit : Repository → Except Failure Unit × Repository
  | memory c (some t) => let (r, c, t) := t.commit c; (r, memory c (some t))
  | embedded c (some h) => let (r, h, c) := Embedded.commit h c; (r, embedded c (some h))
  | r => (.error noTransaction, r)

def rollback : Repository → Except Failure Unit × Repository
  | memory c (some t) => (.ok (), memory c (some t.rollback))
  | embedded c (some h) => let (r, h, c) := Embedded.rollback h c; (r, embedded c (some h))
  | r => (.error noTransaction, r)

/-- Gives the transaction up, and with it what it did not commit. There may be something to log. -/
def close : Repository → List Log.Entry × Repository
  | memory c _ => ([], memory c none)
  | embedded c (some h) => let (es, c) := Embedded.close h c; (es, embedded c none)
  | embedded c none => ([], embedded c none)

def onConnection {α : Type} (f : Embedded.Connection → α × Embedded.Connection) :
    Repository → Option (α × Repository)
  | memory .. => none
  | embedded c t => let (a, c) := f c; some (a, embedded c t)

end Repository
end DurableTopic

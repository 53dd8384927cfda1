import DurableTopic.Repository.Server.Pool
import DurableTopic.Repository.Server.Query
import DurableTopic.Repository.Server.Reply
/-! Talking to a database server. The server is known by what it answers next; everything that is
sent to it is kept in order. -/

namespace DurableTopic.Repository.Server

/-- Something that is sent to the server, and on which connection. -/
inductive Event where
  | connected (address : String) (c : Connection)
  | prepared (c : Connection) (p : Prepared)
  | began (c : Connection)
  | queried (c : Connection) (s : Statement) (parameters : List Parameter)
  | committed (c : Connection)
  | aborted (c : Connection)
  | disconnected (c : Connection)
  deriving Repr, DecidableEq

/-- What the server answers next to attempts to connect, to the preparation of statements, to the
start of transactions, to statements and to commits. What is not foreseen succeeds, and with no
rows. -/
structure Answers where
  connects : List (Except Refusal Unit) := []
  prepares : List (Except Refusal Unit) := []
  begins : List (Except Refusal Unit) := []
  replies : List (Except Refusal (List Cells)) := []
  commits : List (Except Refusal Unit) := []

/-- A client of a server. The pool may be dropped while its connections are in use. -/
structure Link where
  address : String
  pool : Option Pool
  attempts : Nat := 0
  answers : Answers := {}
  sent : List Event := []

/-- Work on a server. -/
abbrev Work := StateM Link

/-- Work that the server may refuse. -/
abbrev Request := ExceptT Refusal Work

namespace Link

/-- A client that has not connected yet. -/
def ofAddress (address : String) (limit : Nat) : Link where
  address
  pool := some (.ofLimit limit)

def tell (e : Event) : Work Unit := modify fun l => { l with sent := l.sent ++ [e] }

/-- Changes the pool, if there still is one. -/
def onPool (f : Pool → Pool) : Work Unit := modify fun l => { l with pool := l.pool.map f }

/-- The next of some answers, and the rest of them. -/
def pop {α : Type} (foreseen : List (Except Refusal α)) (otherwise : α) :
    Except Refusal α × List (Except Refusal α) :=
  match foreseen with
  | a :: rest => (a, rest)
  | [] => (.ok otherwise, [])

/-- Takes the next answer out of those that are foreseen. -/
def next {α : Type} (f : Answers → Except Refusal α × Answers) : Request α :=
  ExceptT.mk <| modifyGet fun l => let (a, answers) := f l.answers; (a, { l with answers })

def nextConnect : Request Unit :=
  next fun a => let (r, connects) := pop a.connects (); (r, { a with connects })

def nextPrepare : Request Unit :=
  next fun a => let (r, prepares) := pop a.prepares (); (r, { a with prepares })

def nextBegin : Request Unit :=
  next fun a => let (r, begins) := pop a.begins (); (r, { a with begins })

def nextReply : Request (List Cells) :=
  next fun a => let (r, replies) := pop a.replies []; (r, { a with replies })

def nextCommit : Request Unit :=
  next fun a => let (r, commits) := pop a.commits (); (r, { a with commits })

/-- Prepares statements on a connection. One that fails closes it. -/
def prepare (c : Connection) : List Prepared → Request Unit
  | [] => pure ()
  | p :: ps => do
    ExceptT.lift (tell (.prepared c p))
    match ← ExceptT.lift nextPrepare.run with
    | .ok () => prepare c ps
    | .error e =>
      ExceptT.lift (tell (.disconnected c))
      throw e

/-- Connects and prepares all statements. Attempts are counted also if they fail. -/
def connect : Request Connection := do
  modify fun l => { l with attempts := l.attempts + 1 }
  let l ← get
  ExceptT.lift (tell (.connected l.address l.attempts))
  nextConnect
  prepare l.attempts Prepared.all
  return l.attempts

/-- Connects in a place of the pool, which is given back if that fails. -/
def establish : Request Connection := ExceptT.mk do
  let r ← connect.run
  if let .error _ := r then onPool Pool.giveBack
  return r

def noPool : Refusal := ⟨.misuse, "the pool is gone"⟩

/-- A connection out of the pool, or nothing if one has to be waited for. -/
def acquire : Request (Option Connection) := do
  match (← get).pool.map Pool.request with
  | none => throw noPool
  | some (.wait, _) => return none
  | some (.reuse c, p) =>
    modify fun l => { l with pool := some p }
    return some c
  | some (.place, p) =>
    modify fun l => { l with pool := some p }
    some <$> establish

/-- Returns a connection to the pool. Without a pool it is closed. -/
def release (c : Connection) : Work Unit := do
  if (← get).pool.isSome then onPool (·.release c) else tell (.disconnected c)

/-- Drops the pool and closes its idle connections, the oldest first. -/
def dropPool : Work Unit := do
  let idle := ((← get).pool.elim [] (·.idle)).reverse
  modify fun l => { l with pool := none }
  idle.forM fun c => tell (.disconnected c)

def query (c : Connection) (s : Statement) (parameters : List Parameter) : Request (List Cells) := do
  ExceptT.lift (tell (.queried c s parameters))
  nextReply

end Link
end DurableTopic.Repository.Server

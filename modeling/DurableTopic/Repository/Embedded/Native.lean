import DurableTopic.Repository.Basic
/-! The calls of the embedded repository, one step of the database engine after the other: statements
are prepared and stepped, and transactions are started and ended by statements of their own. The engine
is any that answers these steps. Last comes the one that works on the tables of a connection. -/

namespace DurableTopic.Repository.Embedded

/-- A refusal of the engine: a result code, whose lowest byte is its kind, and a text. -/
structure Refusal where
  number : Nat
  text : String
  deriving Repr, DecidableEq

namespace Refusal

/-- Whether a lock is held by someone else: `SQLITE_BUSY` or `SQLITE_LOCKED`. -/
def isLock (r : Refusal) : Bool := r.number % 256 = 5 || r.number % 256 = 6

/-- The code in words that every backend shares. -/
def code (r : Refusal) : ErrorCode :=
  if r.isLock then .busy
  else match r.number % 256 with
    | 10 => .ioError
    | 11 => .corruption
    | 19 => .constraintViolation
    | _ => .internalError

def status (r : Refusal) : Status := ⟨r.code, r.text⟩

end Refusal

/-- A statement, with what is bound to it. -/
inductive Query where
  | highest (destination : String)
  | insert (row : Row)
  | resolve (destination id : String)
  | persist (destination : String) (key : SubscriberKey) (mark : Watermark)
  | load (destination : String) (key : SubscriberKey)
  | scanAfter (destination : String) (key : SubscriberKey) (above limit : Int)
  | scanAll (destination : String) (key : SubscriberKey)
  | count (destination : String) (key : SubscriberKey)
  | put (record : Subscription) (retroactive : Bool)
  | get (destination : String) (key : SubscriberKey)
  | delete (destination : String) (key : SubscriberKey)
  | list (destination : String)
  deriving Repr, DecidableEq

/-- What the first step of a statement gives. -/
inductive First (α : Type) where
  | row (a : α)
  | done
  | refused (r : Refusal)

/-- What a statement gives that is stepped to its end. -/
structure Rows (α : Type) where
  rows : List α
  refusal : Option Refusal := none

/-- What a statement gives as far as it is stepped. -/
abbrev Query.Outcome : Query → Type
  | .highest _ | .count .. => First Int
  | .resolve .. | .load .. => First Watermark
  | .get .. => First Subscription
  | .insert _ | .persist .. | .put .. | .delete .. => First Unit
  | .scanAfter .. | .scanAll .. => Rows Row
  | .list _ => Rows Subscription

/-- A statement that is run by its text alone. -/
inductive Control where
  | begin | commit | rollback
  deriving Repr, DecidableEq

/-- A database engine: how it answers the steps of the repository on its connection. -/
structure Engine (δ : Type) where
  execute : Control → δ → Option Refusal × δ
  prepare : Query → δ → Option Refusal × δ
  step : (q : Query) → δ → q.Outcome × δ

namespace First

variable {α : Type}

def refusal? : First α → Option Refusal
  | refused r => some r
  | _ => none

/-- The row of a statement that may have one. -/
def read? : First α → Except Failure (Option α)
  | row a => .ok (some a)
  | done => .ok none
  | refused r => .error (.runtime r.text)

/-- The row of a statement that has one. -/
def read : First α → Except Failure α
  | row a => .ok a
  | done => .error (.runtime "")
  | refused r => .error (.runtime r.text)

/-- What a statement reports whose rows do not matter. -/
def status : First α → Status
  | refused r => r.status
  | _ => .success

def next : First Int → Except Status Int
  | row n => .ok (n + 1)
  | x => .error x.status

end First

namespace Rows

variable {α : Type}

/-- All rows, if there are no more. -/
def read (x : Rows α) : Except Failure (List α) :=
  match x.refusal with
  | none => .ok x.rows
  | some r => .error (.runtime r.text)

/-- What a scan gives. The rows before a refusal are read. -/
def scan (x : Rows Row) : Scan := ⟨x.rows, .ok (x.refusal.elim .success Refusal.status)⟩

end Rows

namespace Engine

variable {δ : Type}

/-- Prepares a statement and steps it. -/
def run {β : Type} (E : Engine δ) (q : Query) (refuse : Refusal → β) (f : q.Outcome → β) (c : δ) :
    β × δ :=
  match E.prepare q c with
  | (some r, c) => (refuse r, c)
  | (none, c) => let (x, c) := E.step q c; (f x, c)

/-- Runs a statement for a call that can report nothing, and so raises what goes wrong. -/
def read {α : Type} (E : Engine δ) (q : Query) (f : q.Outcome → Except Failure α) :
    δ → Except Failure α × δ :=
  E.run q (fun r => .error (.runtime ("sqlite prepare: " ++ r.text))) f

/-- Runs a statement for a call that reports what goes wrong. -/
def write (E : Engine δ) (q : Query) (f : q.Outcome → Status) : δ → Except Failure Status × δ :=
  E.run q (fun r => .ok (internal r.text)) fun x => .ok (f x)

def append (E : Engine δ) (r : Row) (c : δ) : Except Failure Appended × δ :=
  let (x, c) : Except Status Int × δ :=
    E.run (.highest r.destination) (fun x => .error (internal x.text)) First.next c
  match x with
  | .error s => (.ok ⟨s, r.sequence⟩, c)
  | .ok n =>
    E.run (.insert { r with sequence := n }) (fun x => .ok ⟨internal x.text, r.sequence⟩)
      (fun
        | .done => .ok ⟨.success, n⟩
        | x => .ok ⟨x.status, r.sequence⟩) c

def perform (E : Engine δ) : (call : Call) → δ → call.Reply × δ
  | .append r => E.append r
  | .resolve d id => E.read (.resolve d id) First.read?
  | .persist d k w => E.write (.persist d k w) First.status
  | .load d k => E.read (.load d k) fun x => x.read?.map (·.getD .start)
  | .scanAfter d k above limit =>
    if limit = 0 then fun c => ({}, c)
    else E.run (.scanAfter d k above.sequence (limitWord limit))
      (fun r => ⟨[], .ok (internal r.text)⟩) Rows.scan
  | .scanAll d k => E.run (.scanAll d k) (fun r => ⟨[], .ok (internal r.text)⟩) Rows.scan
  | .count d k => E.read (.count d k) First.read
  | .put record retroactive => E.write (.put record retroactive) First.status
  | .get d k => E.read (.get d k) First.read?
  | .delete d k => E.write (.delete d k) First.status
  | .list d => E.read (.list d) Rows.read

/-- Starts a transaction that holds the write lock. -/
def begin (E : Engine δ) (c : δ) : Except Failure Handle × δ :=
  let (r, c) := E.execute .begin c
  (r.elim (.ok {}) fun r => .error (.runtime r.text), c)

def commit (E : Engine δ) (h : Handle) (c : δ) : Except Failure Unit × Handle × δ :=
  match E.execute .commit c with
  | (none, c) => (.ok (), ⟨true, true⟩, c)
  | (some r, c) => (.error (.runtime r.text), h, c)

/-- Gives a transaction up. A rollback that fails is only logged. -/
def close (E : Engine δ) (h : Handle) (c : δ) : List Log.Entry × δ :=
  if h.finished then ([], c)
  else match E.execute .rollback c with
    | (none, c) => ([], c)
    | (some r, c) =>
      ([⟨.warning, "sqlite rollback failed", [.text "error" (Text.beforeNul r.text)]⟩], c)

end Engine

/-- A connection of an engine, and the one transaction that may be on it. -/
structure Base (δ : Type) where
  connection : δ
  transaction : Option Handle := none

namespace Base

variable {δ : Type}

def begin (E : Engine δ) (b : Base δ) : Except Failure Unit × Base δ :=
  match E.begin b.connection with
  | (.ok h, c) => (.ok (), ⟨c, some h⟩)
  | (.error f, c) => (.error f, ⟨c, none⟩)

def perform (E : Engine δ) (call : Call) : Base δ → call.Reply × Base δ
  | ⟨c, some h⟩ => let (r, c) := E.perform call c; (r, ⟨c, some h⟩)
  | b => (call.failed noTransaction, b)

def commit (E : Engine δ) : Base δ → Except Failure Unit × Base δ
  | ⟨c, some h⟩ => let (r, h, c) := E.commit h c; (r, ⟨c, some h⟩)
  | b => (.error noTransaction, b)

def close (E : Engine δ) : Base δ → List Log.Entry × Base δ
  | ⟨c, some h⟩ => let (es, c) := E.close h c; (es, ⟨c, none⟩)
  | b => ([], b)

end Base

/-- How a refusal is numbered. What no other number stands for is `SQLITE_ERROR`. -/
def Refusal.of (s : Status) : Refusal where
  number :=
    match s.code with
    | .busy => 5
    | .ioError => 10
    | .corruption => 11
    | .constraintViolation => 19
    | _ => 1
  text := s.message

namespace Connection

/-- What a statement gives that only reads. -/
def first {α β : Type} (r : Except String α) (f : α → Option β) : First β :=
  match r with
  | .error e => .refused (.of (internal e))
  | .ok a => (f a).elim .done .row

def rows {α : Type} (r : Except String (List α)) : Rows α :=
  match r with
  | .error e => ⟨[], some (.of (internal e))⟩
  | .ok as => { rows := as }

/-- What a statement gives that writes. -/
def wrote {α : Type} (r : Except Status α × Connection) : First Unit × Connection :=
  (match r.1 with
    | .error s => .refused (.of s)
    | .ok _ => .done, r.2)

/-- The tables that a statement names. -/
def named (t : Tables) : Query → Except String Unit
  | .highest _ | .insert _ | .resolve .. => discard t.readMessages
  | .persist .. | .load .. | .get .. | .delete .. | .list _ => discard t.readSubscriptions
  | .scanAfter .. | .scanAll .. | .count .. => do
    let _ ← t.readMessages
    discard t.readSubscriptions
  | .put .. => do
    let _ ← t.readSubscriptions
    discard t.readMessages

/-- The rows of a table, where there is one. -/
def held {α : Type} (r : Except String (List α)) : List α :=
  match r with
  | .ok rows => rows
  | .error _ => []

/-- What a prepared statement gives on a connection. -/
def step (c : Connection) : (q : Query) → q.Outcome × Connection
  | .highest d =>
    (first c.tables.readMessages fun rows =>
      some ((Tables.greatest rows (Text.beforeNul d)).getD 0), c)
  | .insert r => wrote (c.write (·.insertMessage (held c.tables.readMessages) r))
  | .resolve d id => (first (c.tables.resolve d id) fun w => w, c)
  | .persist d k w => wrote (c.write (·.updateAcked (held c.tables.readSubscriptions) (.of d k) w))
  | .load d k => (first (c.tables.subscriber (.of d k)) (·.map (·.acked)), c)
  | .scanAfter d k above limit =>
    (rows ((c.tables.joined (.of d k) fun _ => above).map (limited · limit)), c)
  | .scanAll d k => (rows (c.tables.joined (.of d k) (·.acked.sequence)), c)
  | .count d k =>
    (first (c.tables.joined (.of d k) (·.acked.sequence)) fun rows => some (rows.length : Int), c)
  | .put record retroactive => wrote (c.write (·.upsert (held c.tables.readSubscriptions)
      (held c.tables.readMessages) record retroactive))
  | .get d k => (first (c.tables.subscriber (.of d k)) (·.map (·.record)), c)
  | .delete d k => wrote (c.write (·.deleteSubscriber (held c.tables.readSubscriptions) (.of d k)))
  | .list d => (rows ((c.tables.subscribers d).map (·.map (·.record))), c)

/-- The refusal to start or end a transaction. Where it is the lock that is missing, it says so. -/
def control (c : Connection) : Control → Option Refusal × Connection
  | .begin =>
    match c.mayWrite with
    | .error s => (some (.of s), c)
    | .ok () => ended (c.begin true)
  | .commit => ended c.commit
  | .rollback => ended c.rollback
where
  ended (r : Except String Unit × Connection) : Option Refusal × Connection :=
    (match r.1 with
      | .ok () => none
      | .error e => some (.of (internal e)), r.2)

/-- The engine that works on the tables of a connection. -/
def engine : Engine Connection where
  execute k c := c.control k
  prepare q c :=
    (match named c.tables q with
      | .ok () => none
      | .error e => some (.of (internal e)), c)
  step q c := c.step q

end Connection
end DurableTopic.Repository.Embedded

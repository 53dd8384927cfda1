import DurableTopic.Repository.Embedded.Path
import DurableTopic.Repository.Embedded.Statement
/-! A connection to an embedded database: what it sees, the transaction that is active on it, and who
holds the one lock that lets a connection write. -/

namespace DurableTopic.Repository.Embedded

/-- A connection. Without a file the database is one of its own. -/
structure Connection where
  file : Option Path := none
  tables : Tables := {}
  /-- The tables before the active transaction. -/
  saved : Option Tables := none
  writing : Bool := false
  /-- Whether another connection holds the write lock. -/
  lockedOut : Bool := false
  readOnly : Bool := false
  /-- How many milliseconds a lock is waited for, if the number is positive. -/
  busyTimeout : Int32 := 5000
  deriving Repr, DecidableEq, Inhabited

namespace Connection

/-- Whether others may connect to the same database. -/
def shared (c : Connection) : Bool := c.file.isSome

/-- What is said of a write on a connection that refuses writes. -/
def readOnlyText : String := "attempt to write a readonly database"

def lockedText : String := "database is locked"

/-- What a write needs before it starts. -/
def mayWrite (c : Connection) : Except Status Unit :=
  if c.readOnly then .error (internal readOnlyText)
  else if c.lockedOut then .error ⟨.busy, lockedText⟩
  else .ok ()

/-- Runs a statement that writes. Inside a transaction the write lock is held from then on. -/
def write {α : Type} (c : Connection) (f : Tables → Except Status (α × Tables)) :
    Except Status α × Connection :=
  match c.mayWrite with
  | .error s => (.error s, c)
  | .ok () =>
    let c := { c with writing := c.saved.isSome }
    match f c.tables with
    | .error s => (.error s, c)
    | .ok (a, t) => (.ok a, { c with tables := t })

/-- Starts a transaction. An immediate one takes the write lock first, also where it then finds
that a transaction is active already. -/
def begin (c : Connection) (immediate : Bool) : Except String Unit × Connection :=
  match if immediate then c.mayWrite else .ok () with
  | .error s => (.error s.message, c)
  | .ok () =>
    if c.saved.isSome then
      (.error "cannot start a transaction within a transaction",
        { c with writing := c.writing || immediate })
    else (.ok (), { c with saved := some c.tables, writing := immediate })

def commit (c : Connection) : Except String Unit × Connection :=
  if c.saved.isSome then (.ok (), { c with saved := none, writing := false })
  else (.error "cannot commit - no transaction is active", c)

def rollback (c : Connection) : Except String Unit × Connection :=
  match c.saved with
  | some t => (.ok (), { c with tables := t, saved := none, writing := false })
  | none => (.error "cannot rollback - no transaction is active", c)

/-- A write of which only the text of its refusal counts. -/
def change (c : Connection) (f : Tables → Tables) : Except String Unit × Connection :=
  let (r, c) := c.write fun t => .ok ((), f t)
  (r.mapError (·.message), c)

def execute (c : Connection) : Statement → Except String Unit × Connection
  | .begin immediate => c.begin immediate
  | .commit => c.commit
  | .rollback => c.rollback
  | .readOnly on => (.ok (), { c with readOnly := on })
  | .idle => (.ok (), c)
  | .dropTable name ifExists =>
    match (Table.ofName? name).filter c.tables.has with
    | some t => c.change (·.drop t)
    | none => (if ifExists then .ok () else .error ("no such table: " ++ name), c)
  | .dropTrigger name ifExists =>
    match c.tables.trigger? name with
    | some t => c.change fun tables => { tables with triggers := tables.triggers.erase t }
    | none => (if ifExists then .ok () else .error ("no such trigger: " ++ name), c)
  | .createTrigger r =>
    match (Table.ofName? r.table).filter c.tables.has with
    | none => (.error ("no such table: main." ++ r.table), c)
    | some table =>
      let known := (c.tables.trigger? r.name).isSome
      if known && !r.unlessExists then (.error ("trigger " ++ r.name ++ " already exists"), c)
      else match r.body with
        | .error e => (.error e, c)
        | .ok text =>
          if known then (.ok (), c)
          else c.change fun tables =>
            { tables with triggers := ⟨r.name, ⟨r.verb, table⟩, text⟩ :: tables.triggers }

/-- Runs statements in order. One that fails, or cannot be read, is the last. -/
def runScript (c : Connection) : List (Except String Statement) → Except String Unit × Connection
  | [] => (.ok (), c)
  | .error e :: _ => (.error e, c)
  | .ok s :: rest =>
    match c.execute s with
    | (.ok (), c) => runScript c rest
    | (.error e, c) => (.error e, c)

/-- Another connection takes the write lock, if it can. A database that is not shared has a lock of
its own for everyone. -/
def lockOut (c : Connection) : Except String Unit × Connection :=
  if !c.shared then (.ok (), c)
  else if c.writing then (.error lockedText, c)
  else (.ok (), { c with lockedOut := true })

def unlock (c : Connection) : Connection := { c with lockedOut := false }

/-- The connection is closed and the database is opened again, which makes the tables that are
missing, and so needs the write lock. The file holds what is committed; a database that is not shared
starts empty. -/
def reopen (c : Connection) : Except String Unit × Connection :=
  let closed : Connection :=
    { file := c.file
      busyTimeout := c.busyTimeout
      lockedOut := c.lockedOut
      tables := if c.shared then c.saved.getD c.tables else {} }
  if c.lockedOut then (.error lockedText, closed)
  else (.ok (), { closed with tables := closed.tables.migrated })

end Connection
end DurableTopic.Repository.Embedded

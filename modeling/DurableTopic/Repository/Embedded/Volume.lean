import DurableTopic.Assoc
import DurableTopic.Repository.Embedded.Address
import DurableTopic.Repository.Embedded.Connection
/-! The files that embedded databases live in, and how one is opened. -/

namespace DurableTopic.Repository.Embedded

inductive File where
  | database (t : Tables)
  | other
  /-- Nothing: what is written to it is lost. -/
  | device
  deriving Repr, DecidableEq

/-- Directories, files, and the directory in which a path starts that does not start at the root. -/
structure Volume where
  working : Path := []
  directories : List Path := [[]]
  files : Assoc Path File := ∅
  deriving Repr, DecidableEq, Inhabited

/-- How long a connection waits for a lock, as the signed word that the database takes. It does not
wait at all if the word is not positive. -/
def busyTimeoutWord (ms : UInt32) : Int32 := ms.toInt32

namespace Volume

def longestName : Nat := 255

/-- The most bytes in the name of a database. Its journal has a longer name. -/
def longestDatabaseName : Nat := 247

/-- The most bytes in the name of a file that is locked by a directory beside it. -/
def longestLockedName : Nat := 250

def longestWritten : Nat := 4095

/-- The most bytes in a path on the way to a database. -/
def longestWay : Nat := 511

/-- The most bytes in the path of a database. -/
def longestPath : Nat := 504

/-- The most bytes in the path of a database that the system in memory keeps. -/
def longestMemoryPath : Nat := 1016

def unableText : String := "unable to open database file"

def notDatabaseText : String := "file is not a database"

/-- What is said when a file cannot be read, or not be written for good. -/
def brokenText : String := "disk I/O error"

/-- One name further along a path, of which every part is looked at. There is no way on from a file,
and none to a name or along a path that is too long; a part that does not exist is no obstacle. -/
def walk (v : Volume) (p : Path) (name : Bytes) : Option Path :=
  let q := p.next name
  if Path.isEntry name && ((v.files.find? p).isSome || longestWay < q.written.length ||
      (p ∈ v.directories && longestName < name.length)) then none
  else some q

def resolve (v : Volume) (b : Bytes) : Option Path := do
  let p ← (Path.names b).foldlM v.walk (Path.start v.working b)
  if p.isEmpty || longestPath < p.written.length then none else some p

/-- One name further along a path on which everything must exist. -/
def enter (v : Volume) (p : Path) (name : Bytes) : Option Path :=
  if p ∈ v.directories then some (p.next name) else none

/-- Whether there is something where a written path leads. Behind a slash at its end, it must be a
directory. -/
def contains (v : Volume) (b : Bytes) : Bool :=
  let behind := if b.getLast? = some Path.slash then [Path.here] else []
  !b.isEmpty && b.length ≤ longestWritten &&
    ((Path.names b ++ behind).foldlM v.enter (Path.start v.working b)).any fun p =>
      p ∈ v.directories || (v.files.find? p).isSome

/-- What the first write to a file needs: leave to write, and a name that leaves room for those of the
lock and the journal. -/
def mayWrite (a : Address) (p : Path) : Except String Unit :=
  let size := (p.getLast?.getD []).length
  if a.isReadOnly then .error Connection.readOnlyText
  else if a.locksBeside && longestLockedName < size then .error brokenText
  else if longestDatabaseName < size then .error unableText
  else .ok ()

/-- The tables in a file to which nothing was written yet. -/
def noTables : Tables := { messages := none, subscriptions := none }

/-- Opens the database at a path and makes its tables, which is not possible if it cannot be written,
or if the write-ahead log that is asked for has no index. A file that is made on the way stays. -/
def openAt (v : Volume) (a : Address) (p : Path) (wal : Bool) (busyTimeoutMs : UInt32) :
    Except String Connection × Volume :=
  let opened (t : Tables) : Except String Connection :=
    match mayWrite a p with
    | .error e => .error e
    | .ok () =>
      if wal && a.lacksIndex then .error unableText
      else .ok { file := some p, tables := t.migrated, busyTimeout := busyTimeoutWord busyTimeoutMs }
  if a.model.any (!v.contains ·) then (.error brokenText, v)
  else match v.files.find? p with
  | some (.database t) => (opened t, v)
  | some .other => (.error notDatabaseText, v)
  | some .device => (mayWrite a p >>= fun () => .error brokenText, v)
  | none =>
    if p ∈ v.directories then
      (.error (if a.access = .readOnly then brokenText else unableText), v)
    else if a.access = .create && p.dropLast ∈ v.directories then
      (opened noTables, { v with files := v.files.put p (.database noTables) })
    else (.error unableText, v)

/-- Opens a database by its address, with a write-ahead log or without. -/
def connect (v : Volume) (address : String) (wal : Bool) (busyTimeoutMs : UInt32) :
    Except String Connection × Volume :=
  let own : Connection := { busyTimeout := busyTimeoutWord busyTimeoutMs }
  match Address.read address with
  | .error e => (.error e, v)
  | .ok a =>
    if a.isPrivate then
      (if a.access = .readOnly then .error Connection.readOnlyText else .ok own, v)
    else if a.system = Address.memorySystem then
      (if longestMemoryPath < a.path.length then .error unableText
        else if a.isReadOnly then .error Connection.readOnlyText
        else .ok own, v)
    else match v.resolve a.path with
      | some p => v.openAt a p wal busyTimeoutMs
      | none => (.error unableText, v)

/-- What a closed connection leaves in its file. -/
def keep (v : Volume) (c : Connection) : Volume :=
  match c.file with
  | some p => { v with files := v.files.put p (.database (c.saved.getD c.tables)) }
  | none => v

end Volume
end DurableTopic.Repository.Embedded

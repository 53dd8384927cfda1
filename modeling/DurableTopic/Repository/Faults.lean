import DurableTopic.Repository.Basic
/-! Repositories that can be made to fail. Each kind of call can be given a fault; a call with a fault
is noted like any other and then fails. -/

namespace DurableTopic.Repository

/-- The kinds of call that can be made to fail. -/
inductive Point where
  | begin | append | resolve | persist | load | scanAfter | scanAll | count | put | get | delete | list
  deriving Repr, DecidableEq, Inhabited

def Point.name : Point → String
  | begin => "begin"
  | append => "append"
  | resolve => "resolve"
  | persist => "persist"
  | load => "load"
  | scanAfter => "scan_after"
  | scanAll => "scan_all"
  | count => "count"
  | put => "put"
  | get => "get"
  | delete => "delete"
  | list => "list"

def Point.ofName? (s : String) : Option Point :=
  [begin, append, resolve, persist, load, scanAfter, scanAll, count, put, get, delete, list].find?
    (·.name = s)

namespace Call

def point : Call → Point
  | append _ => .append
  | resolve .. => .resolve
  | persist .. => .persist
  | load .. => .load
  | scanAfter .. => .scanAfter
  | scanAll .. => .scanAll
  | count .. => .count
  | put .. => .put
  | get .. => .get
  | delete .. => .delete
  | list _ => .list

/-- How a call is noted. -/
def note : Call → String
  | persist _ _ w => "persist " ++ toString w.sequence ++ " " ++ toString w.priority
  | scanAfter _ _ w limit =>
    "scan_after " ++ toString w.sequence ++ " " ++ toString w.priority ++ " " ++ toString limit
  | c => c.point.name

end Call

/-- How a call fails: it reports a refusal, where it can, or it does not return. -/
inductive Trouble where
  | report (s : Status)
  | raise (f : Failure)
  deriving Repr, DecidableEq

/-- A fault: how calls fail, how many more will, and how many rows of a scan are read before. -/
structure Fault where
  trouble : Trouble
  /-- Absent if all calls from now on fail. -/
  times : Option Nat := none
  rows : Nat := 0
  deriving Repr, DecidableEq

/-- The faults of a repository, and what else may be wrong with its scans. -/
structure Faults where
  table : Assoc Point Fault := ∅
  /-- How far below the asked position a scan starts. -/
  shift : Int := 0
  /-- Whether a scan shows each row twice. -/
  twice : Bool := false
  deriving Repr, DecidableEq

namespace Faults

/-- The fault that hits a call, which is then used up once. -/
def hit (fs : Faults) (p : Point) : Option Fault × Faults :=
  match fs.table.find? p with
  | none => (none, fs)
  | some f =>
    match f.times with
    | none => (some f, fs)
    | some 0 => (none, fs)
    | some (n + 1) => (some f, { fs with table := fs.table.put p { f with times := some n } })

end Faults

/-- The call that is really made: a scan may start below the asked position. -/
def Call.shifted (shift : Int) : Call → Call
  | .scanAfter d k w limit => .scanAfter d k { w with sequence := w.sequence - shift } limit
  | c => c

/-- The answer to a shifted call is an answer to the call. -/
def Call.unshift (shift : Int) : (c : Call) → (c.shifted shift).Reply → c.Reply
  | .append _, r | .resolve .., r | .persist .., r | .load .., r | .scanAfter .., r | .scanAll .., r
  | .count .., r | .put .., r | .get .., r | .delete .., r | .list _, r => r

/-- What is seen of a scan: with a fault, no more rows than the fault leaves. A scan that fails by
itself fails as it does. -/
def Scan.seen (s : Scan) (twice : Bool) (fault : Option Fault) : Scan :=
  let left := fault.elim s.rows (s.rows.take ·.rows)
  let rows := if twice then left.flatMap fun r => [r, r] else left
  match fault, s.outcome with
  | some f, .ok status =>
    ⟨rows, if !status.isOk then .ok status else
      match f.trouble with
      | .report s => .ok s
      | .raise e => .error e⟩
  | _, outcome => ⟨rows, outcome⟩

/-- The answer to a call that fails before it is made, if it can fail so. -/
def Call.refused (c : Call) : Trouble → Option c.Reply
  | .report s => c.reporting? s
  | .raise f => some (c.failed f)

/-- A repository with faults, and the notes of the calls made on it. -/
structure Faulty where
  repository : Repository
  faults : Faults := {}
  notes : List String := []
  deriving Repr, DecidableEq

namespace Faulty

/-- Notes a call and looks for a fault that hits it. -/
def noting (r : Faulty) (p : Point) (note : String) : Option Fault × Faulty :=
  let (f, faults) := r.faults.hit p
  (f, { r with faults, notes := r.notes ++ [note] })

def begin (r : Faulty) : Except Failure Unit × Faulty :=
  match r.noting .begin "begin" with
  | (some ⟨.raise f, _, _⟩, r) => (.error f, r)
  | (_, r) =>
    let (a, repository) := r.repository.begin
    (a, { r with repository })

/-- Makes a call on the repository itself. -/
def forward (r : Faulty) (c : Call) : c.Reply × Faulty :=
  let (a, repository) := r.repository.perform (c.shifted r.faults.shift)
  (c.unshift r.faults.shift a, { r with repository })

def unlessHit (r : Faulty) (c : Call) (f : Option Fault) : c.Reply × Faulty :=
  match f.bind fun f => c.refused f.trouble with
  | some a => (a, r)
  | none => r.forward c

def perform (r : Faulty) (c : Call) : c.Reply × Faulty :=
  let (f, r) := r.noting c.point c.note
  match c with
  | .scanAfter d k w limit =>
    let (s, r) := r.forward (.scanAfter d k w limit)
    (Scan.seen s r.faults.twice f, r)
  | .scanAll d k =>
    let (s, r) := r.forward (.scanAll d k)
    (Scan.seen s r.faults.twice f, r)
  | c => r.unlessHit c f

/-- Commits the transaction. Commits are not noted. -/
def commit (r : Faulty) : Except Failure Unit × Faulty :=
  let (a, repository) := r.repository.commit
  (a, { r with repository })

def close (r : Faulty) : List Log.Entry × Faulty :=
  let (es, repository) := r.repository.close
  (es, { r with repository })

end Faulty
end DurableTopic.Repository

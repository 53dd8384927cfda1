import DurableTopic.Assoc
import DurableTopic.Repository.Server
/-! Several transactions on one server, each known by a name. One that has to wait for a connection
starts when another is given up. -/

namespace DurableTopic.Repository.Server

structure Desk where
  link : Link
  transactions : Assoc String Handle := ∅
  waiting : Option String := none

/-- Something done at a desk. -/
abbrev Task := StateM Desk

namespace Desk

/-- Does something on the server. -/
def onLink {α : Type} (x : Work α) : Task α :=
  modifyGet fun d => let (a, link) := x.run d.link; (a, { d with link })

def has (d : Desk) (name : String) : Bool := (d.transactions.find? name).isSome

def close (name : String) : Task Unit := do
  if let some h := (← get).transactions.find? name then
    onLink h.close
    modify fun d => { d with transactions := d.transactions.erase name }

/-- Starts a transaction under a name, in place of one that it had. -/
def begin (name : String) : Task (Except Failure Unit) := do
  close name
  match ← onLink Handle.begin.run with
  | .error e => return .error e.failure
  | .ok none =>
    modify fun d => { d with waiting := some name }
    return .ok ()
  | .ok (some h) =>
    modify fun d => { d with transactions := d.transactions.put name h, waiting := none }
    return .ok ()

/-- Gives a transaction up, and starts the one that waits. -/
def closeAndJoin (name : String) : Task (Except Failure Unit) := do
  close name
  match (← get).waiting with
  | none => return .ok ()
  | some waiting => begin waiting

def onHandle {α : Type} (name : String) (x : Handle → Work (α × Handle)) : Task (Option α) := do
  match (← get).transactions.find? name with
  | none => return none
  | some h =>
    let (a, h) ← onLink (x h)
    modify fun d => { d with transactions := d.transactions.put name h }
    return some a

/-- Takes away what was sent so far, and gives the server new answers. -/
def expect (answers : Answers) : Task Unit :=
  modify fun d => { d with link := { d.link with answers } }

def forget : Task Unit := modify fun d => { d with link := { d.link with sent := [] } }

end Desk
end DurableTopic.Repository.Server

import DurableTopic.Command.Basic
import DurableTopic.Config.Settings
import DurableTopic.Integer
import DurableTopic.Store.Acknowledge
import DurableTopic.Store.Publish
import DurableTopic.Store.Registry
import DurableTopic.Store.Session
/-! Running a command on a store. What a command prints counts also when it fails afterwards. -/

namespace DurableTopic.Command

open Store (Offer Listener Session)

/-- What a listener has printed. -/
structure Printed where
  lines : Nat := 0
  output : Bytes := []
  deriving Repr, DecidableEq, Inhabited

namespace Printed

def line (p : Printed) (b : Bytes) : Printed := ⟨p.lines + 1, p.output ++ b ++ Text.utf8 "\n"⟩

def say (p : Printed) (s : String) : Printed := p.line (Text.utf8 s)

end Printed

def offerLine : Offer → Bytes
  | .message m =>
    Text.utf8 (toString m.identity.sequence.toInt ++ "\t" ++ m.identity.value ++ "\tpriority=" ++
      toString m.priority.toInt ++ "\t") ++ m.body
  | .reference id => Text.utf8 (toString id.sequence.toInt ++ "\t" ++ id.value)

def subscriptionLine (s : Subscription) : String :=
  s.key.client ++ "\t" ++ s.key.name.getD "-" ++ "\tlast_acked=" ++ toString s.acked.sequence ++
    "\tpriority=" ++ toString s.acked.priority ++
    "\tretroactive=" ++ (if s.retroactive then "true" else "false") ++
    (if s.selector.isEmpty then "" else "\tselector=" ++ s.selector)

/-- A listener that prints what it is offered, up to a number of lines. -/
def printer (limit : Nat) : Listener (StateT Printed Session) where
  hasCapacity := do return .ok ((← get).lines < limit)
  offer o := do
    modify fun p => p.line (offerLine o)
    return .ok true

/-- The outcome of a command, and what it printed. -/
abbrev Outcome := Except Failure Unit × Printed

def saying {α : Type} (x : Session (Except Failure α)) (lines : α → List String) :
    Session Outcome := do
  match ← x with
  | .ok a => return (.ok (), (lines a).foldl Printed.say {})
  | .error f => return (.error f, {})

/-- Refuses a command whose number cannot be read. -/
def withNumber (n : Except Failure Int) (x : Int → Session Outcome) : Session Outcome :=
  match n with
  | .ok n => x n
  | .error f => return (.error f, {})

def publishText (id body : String) (priority : Int) : Session (Except Failure Int) :=
  Session.run fun d => Store.publish d
    { id := some ⟨id, 0⟩, destination := d, priority := Int32.ofInt priority,
      body := Text.utf8 body }

/-- Runs a command. A pass without a limit of its own takes as many messages as is configured. -/
def run (batchSize : UInt32) : Command → Session Outcome
  | publish id body priority =>
    withNumber (priority.elim (.ok 0) Integer.parsePriority) fun p =>
      saying (publishText id body p) fun n => ["stored " ++ id ++ " at " ++ toString n]
  | subscribe k retroactive =>
    saying (Session.run fun d => Store.subscribe d { destination := d, key := k } retroactive)
      fun _ => ["subscribed"]
  | unsubscribe k => saying (Session.run (Store.unsubscribe · k)) fun _ => ["unsubscribed"]
  | subscriptions => saying (Session.run Store.subscriptions) fun ss => ss.map subscriptionLine
  | acknowledge k id =>
    saying (Session.run (Store.acknowledge · k id .standard)) fun _ => ["acknowledged " ++ id]
  | count k => saying (Session.run (Store.messageCount · k)) fun n => [toString n]
  | peek k limit =>
    withNumber (limit.elim (.ok batchSize.toNat) Integer.parseBatchSize) fun n => do
      let d := (← get).destination
      let (r, printed) ← ((Store.recoverNext d k n.toNat .messages).serve (printer n.toNat)
        Session.thread).run {}
      return (r.map fun _ => (), printed)

end DurableTopic.Command

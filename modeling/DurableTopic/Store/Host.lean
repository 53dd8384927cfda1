import DurableTopic.Cursor.Cache
import DurableTopic.Repository.Faults
import DurableTopic.Store.Operation
/-! What a store runs on: a repository, a cache of cursors, a log and telemetry. Here the requests of
an operation are answered, one thread at a time. -/

namespace DurableTopic.Store

/-- The surroundings of a store, and the destination that it serves. -/
structure Host where
  destination : String
  /-- The destination that was asked for last. It is served unless the store refuses it. -/
  requested : String
  backend : Repository.Faulty
  cursors : Cursor.Cache := {}
  logger : Log.Logger := {}
  telemetry : Telemetry.Recorder := {}
  deriving Repr

/-- Something done on a host. There is no result if it waits forever. -/
abbrev Session := StateT Host Option

namespace Host

def log (h : Host) (es : List Log.Entry) : Host := { h with logger := es.foldl Log.Logger.log h.logger }

def begin (h : Host) : Except Failure Unit × Host :=
  let (r, backend) := h.backend.begin
  (r, { h with backend })

def perform (h : Host) (c : Repository.Call) : c.Reply × Host :=
  let (r, backend) := h.backend.perform c
  (r, { h with backend })

def commit (h : Host) : Except Failure Unit × Host :=
  let (r, backend) := h.backend.commit
  (r, { h with backend })

def close (h : Host) : Host :=
  let (es, backend) := h.backend.close
  { h with backend }.log es

def onCursors (h : Host) (t : Cursor.Thread) (c : Cursor.Call) : Option (Cursor.Answer × Host) :=
  (h.cursors.call t c).map fun (a, cursors) => (a, { h with cursors })

def tell (h : Host) (f : Telemetry.Recorder → Telemetry.Recorder) : Host :=
  { h with telemetry := f h.telemetry }

/-- Answers a request that is not for a listener. -/
def answer (t : Cursor.Thread) (h : Host) : (e : Effect) → Option (e.Reply × Host)
  | .begin => some h.begin
  | .call c => some (h.perform c)
  | .commit => some h.commit
  | .close => some ((), h.close)
  | .acquire k =>
    match h.onCursors t (.acquire k) with
    | some (.leased slot cursor, h) => some (⟨slot, cursor⟩, h)
    | _ => none
  | .keep slot w => some ((), { h with cursors := h.cursors.keep slot w })
  | .release slot => some ((), { h with cursors := h.cursors.release slot })
  | .reset k => (h.onCursors t (.reset k)).map fun (_, h) => ((), h)
  | .evict k => (h.onCursors t (.evict k)).map fun (_, h) => ((), h)
  | .peek k =>
    (h.onCursors t (.peek k)).map fun (a, h) =>
      (match a with
        | .shown w => w
        | _ => none, h)
  | .log e => some ((), h.log [e])
  | .startSpan operation destination key =>
    let (span, telemetry) := h.telemetry.startSpan operation destination key
    some (span, { h with telemetry })
  | .setAttribute span key value => some ((), h.tell (·.setAttribute span key value))
  | .noteFailure span description => some ((), h.tell (·.noteFailure span description))
  | .endSpan span => some ((), h.tell (·.endSpan span))
  | .countOperation operation destination success =>
    some ((), h.tell (·.countOperation operation destination success))
  | .countRecovered destination count => some ((), h.tell (·.countRecovered destination count))
  | .countScanFailure destination => some ((), h.tell (·.countScanFailure destination))
  | .hasCapacity => some (.ok false, h)
  | .offer _ => some (.ok false, h)

/-- Answers a request as part of a session. -/
def reply (t : Cursor.Thread) (e : Effect) : Session e.Reply := fun h => h.answer t e

end Host

/-- A listener: whether it takes another message, and what it does with one. -/
structure Listener (m : Type → Type) where
  hasCapacity : m (Except Failure Bool)
  offer : Offer → m (Except Failure Bool)

/-- A listener that takes nothing. -/
def Listener.none {m : Type → Type} [Monad m] : Listener m :=
  ⟨pure (.ok false), fun _ => pure (.ok false)⟩

/-- Answers a request, with the help of a listener. -/
def Listener.answer {m : Type → Type} [MonadLiftT Session m] (l : Listener m)
    (t : Cursor.Thread) : (e : Effect) → m e.Reply
  | .hasCapacity => l.hasCapacity
  | .offer o => l.offer o
  | e => liftM (Host.reply t e)

/-- Runs an operation for a listener. -/
def Op.serve {m : Type → Type} [Monad m] [MonadLiftT Session m] {α : Type} (x : Op α)
    (l : Listener m) (t : Cursor.Thread) : m (Except Failure α) :=
  Operation.run (l.answer t) x.run

end DurableTopic.Store

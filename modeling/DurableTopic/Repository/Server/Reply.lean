import DurableTopic.Integer
import DurableTopic.Number.Literal
import DurableTopic.Row
import DurableTopic.Subscription
/-! What a database server answers: rows of cells, or a refusal. -/

namespace DurableTopic.Repository.Server

/-- Why a server, or the client that talks to it, refuses. -/
inductive Cause where
  | brokenConnection | uniqueViolation | checkViolation | integrityViolation
  | serializationFailure | deadlock | statementFailed
  /-- The client was used against its rules. -/
  | misuse
  deriving Repr, DecidableEq, Inhabited

structure Refusal where
  cause : Cause
  text : String
  deriving Repr, DecidableEq, Inhabited

/-- The code for a cause in the words that every backend shares. -/
def Cause.code : Cause → ErrorCode
  | uniqueViolation => .alreadyExists
  | checkViolation | integrityViolation => .constraintViolation
  | serializationFailure => .serializationFailure
  | brokenConnection => .ioError
  | deadlock | statementFailed | misuse => .internalError

namespace Refusal

def status (r : Refusal) : Status := ⟨r.cause.code, Text.beforeNul r.text⟩

def failure (r : Refusal) : Failure :=
  match r.cause with
  | .misuse => .logic r.text
  | _ => .runtime r.text

end Refusal

/-- A value as the server writes it, absent if it is null. -/
abbrev Cell := Option String

abbrev Cells := List Cell

/-- What is said of an answer that does not have the expected form. -/
def unreadable : Refusal := ⟨.statementFailed, "unexpected answer from the server"⟩

/-- What is said of a place behind the end of an answer that has `n` parts. -/
def outside (place n : Nat) : Refusal :=
  ⟨.misuse, "vector::_M_range_check: __n (which is " ++ toString place ++
    ") >= this->size() (which is " ++ toString n ++ ")"⟩

/-- The part of an answer at a place. -/
def part {α : Type} (parts : List α) (place : Nat) : Except Refusal α :=
  match parts[place]? with
  | some a => .ok a
  | none => .error (outside place parts.length)

namespace Cell

def text (c : Cell) : String := Text.beforeNul (c.getD "")

def int (c : Cell) : Except Refusal Int :=
  match c.bind Integer.read? with
  | some i => .ok i
  | none => .error unreadable

def flag (c : Cell) : Except Refusal Bool :=
  match c with
  | some "t" => .ok true
  | some "f" => .ok false
  | _ => .error unreadable

/-- Reads bytes that are written as pairs of digits. -/
def readBytes : List Char → Except Refusal Bytes
  | [] => .ok []
  | a :: b :: rest =>
    match Number.Literal.hexDigit? a, Number.Literal.hexDigit? b with
    | some x, some y => (UInt8.ofNat (16 * x + y) :: ·) <$> readBytes rest
    | _, _ => .error unreadable
  | [_] => .error unreadable

/-- Bytes, which are written behind a mark. A null reads as no bytes. -/
def bytes (c : Cell) : Except Refusal Bytes :=
  match c.map String.toList with
  | none => .ok []
  | some ('\\' :: 'x' :: cs) => readBytes cs
  | some _ => .error unreadable

end Cell

namespace Cells

def text (cells : Cells) (column : Nat) : Except Refusal String := Cell.text <$> part cells column

def int (cells : Cells) (column : Nat) : Except Refusal Int := part cells column >>= Cell.int

def flag (cells : Cells) (column : Nat) : Except Refusal Bool := part cells column >>= Cell.flag

def bytes (cells : Cells) (column : Nat) : Except Refusal Bytes := part cells column >>= Cell.bytes

end Cells

def readMark (cells : Cells) : Except Refusal Watermark := do
  return ⟨← cells.int 0, ← cells.int 1⟩

def readNumber (cells : Cells) : Except Refusal Int := cells.int 0

def readMessage (cells : Cells) : Except Refusal Row := do
  return ⟨← cells.text 0, ← cells.int 1, ← cells.text 2, ← cells.int 3, ← cells.bytes 4⟩

/-- Reads a subscription. The column of the name is read only if there is a name. -/
def readSubscription (cells : Cells) : Except Refusal Subscription := do
  let destination ← cells.text 0
  let client ← cells.text 1
  let name ← if ← cells.flag 3 then some <$> cells.text 2 else pure none
  return ⟨destination, ⟨client, name⟩, ← cells.text 4, ← cells.flag 5, ⟨← cells.int 6, ← cells.int 7⟩⟩

/-- Reads messages up to the first that cannot be read. -/
def readMessages : List Cells → List Row × Except Refusal Unit
  | [] => ([], .ok ())
  | cells :: rest =>
    match readMessage cells with
    | .error e => ([], .error e)
    | .ok r => let (rows, e) := readMessages rest; (r :: rows, e)

end DurableTopic.Repository.Server

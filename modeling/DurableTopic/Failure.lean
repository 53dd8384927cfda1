import DurableTopic.Text
/-! Failures of the store's calls: a code for what went wrong below the store, and the families of
failure that a caller can tell apart. -/

namespace DurableTopic

/-- What went wrong in a repository, in words that every backend shares. -/
inductive ErrorCode where
  | ok | notFound | alreadyExists | conflict | busy | constraintViolation | serializationFailure
  | ioError | corruption | unsupported | internalError
  deriving Repr, DecidableEq, Inhabited

namespace ErrorCode

/-- All codes, each at the place of its number. -/
def all : List ErrorCode :=
  [ok, notFound, alreadyExists, conflict, busy, constraintViolation, serializationFailure,
   ioError, corruption, unsupported, internalError]

def name : ErrorCode → String
  | ok => "ok"
  | notFound => "not_found"
  | alreadyExists => "already_exists"
  | conflict => "conflict"
  | busy => "busy"
  | constraintViolation => "constraint_violation"
  | serializationFailure => "serialization_failure"
  | ioError => "io_error"
  | corruption => "corruption"
  | unsupported => "unsupported"
  | internalError => "internal_error"

def ofNumber? (n : Int) : Option ErrorCode :=
  if n < 0 then none else all[n.toNat]?

/-- The name of the code with this number; a number without a code is `unknown`. -/
def nameOfNumber (n : Int) : String :=
  match ofNumber? n with
  | some c => c.name
  | none => "unknown"

def ofName? (s : String) : Option ErrorCode := all.find? (·.name = s)

theorem ofName?_name (c : ErrorCode) : ofName? c.name = some c := by cases c <;> rfl

end ErrorCode

/-- The outcome of a repository call that reports instead of failing. -/
structure Status where
  code : ErrorCode := .ok
  message : String := ""
  deriving Repr, DecidableEq, Inhabited

namespace Status

def success : Status := {}

def isOk (s : Status) : Bool := s.code = .ok

@[simp] theorem isOk_success : success.isOk = true := rfl

end Status

/-- What a listener threw: an exception with its text, or an object that is no exception. -/
inductive Thrown where
  | exception (text : String)
  | object
  deriving Repr, DecidableEq, Inhabited

/-- Why a call did not return. -/
inductive Failure where
  /-- The store could not finish a call on its repository. -/
  | store (code : ErrorCode) (text : String)
  /-- Stored bytes are not a message, or a row cannot be named. -/
  | codec (text : String)
  /-- The caller's arguments are refused. -/
  | invalidArgument (text : String)
  | listener (thrown : Thrown)
  /-- An object was used against its rules. -/
  | logic (text : String)
  /-- Anything else that goes wrong below the store. -/
  | runtime (text : String)
  deriving Repr, DecidableEq, Inhabited

namespace Failure

/-- The whole text that a failure was raised with. -/
def text : Failure → String
  | store _ t | codec t | invalidArgument t | listener (.exception t) | logic t | runtime t => t
  | listener .object => ""

/-- What a failure says: its text up to the first NUL. -/
def message (f : Failure) : String := Text.beforeNul f.text

/-- Whether handlers see a failure. An object that is no exception passes them all. -/
def isException : Failure → Bool
  | listener .object => false
  | _ => true

/-- The failures that pass as they are: those that the store raises itself, and what no handler
sees. -/
def isOwn : Failure → Bool
  | store .. | codec _ | invalidArgument _ | listener .object => true
  | _ => false

/-- What the store makes of a failure that reaches it: any failure but its own is named after the
context in which it arose. -/
def inContext (context : String) (f : Failure) : Failure :=
  if f.isOwn then f else store .internalError (context ++ ": " ++ f.message)

theorem inContext_own {f : Failure} (h : f.isOwn) (context : String) : f.inContext context = f := by
  simp [inContext, h]

@[simp] theorem isException_inContext {context : String} {f : Failure} :
    (f.inContext context).isException = f.isException := by
  unfold inContext
  split
  · rfl
  · rcases f with _ | _ | _ | (_ | _) | _ | _ <;> first | rfl | contradiction

end Failure

/-- A reported failure as a failure of the store. -/
def Status.require (s : Status) (context : String) : Except Failure Unit :=
  if s.isOk then .ok () else .error (.store s.code (context ++ ": " ++ s.message))

end DurableTopic

import DurableTopic.Failure
/-! Integer arguments: an optional minus sign and decimal digits, within bounds. An integer is first
read from the front of a text into a signed word of 64 bits; whether something follows it is looked at
before its size. -/

namespace DurableTopic.Integer

/-- What stands at the front of a text. -/
inductive Front where
  | nothing
  /-- An integer that a signed word holds, and what follows it. -/
  | word (n : Int64) (rest : List Char)
  /-- An integer that no signed word holds, and what follows it. -/
  | beyond (rest : List Char)
  deriving Repr, DecidableEq

/-- A minus sign, if there is one, and the rest. -/
def sign : List Char → Bool × List Char
  | '-' :: cs => (true, cs)
  | cs => (false, cs)

/-- The number that decimal digits stand for, behind a minus sign or not. -/
def value (negative : Bool) (ds : List Char) : Int :=
  let n : Int := Nat.ofDigitChars 10 ds 0
  if negative then -n else n

/-- Reads the longest integer at the front of a text. Digits are read to their end also when there are
too many of them. -/
def front (text : List Char) : Front :=
  let (negative, cs) := sign text
  let ds := cs.takeWhile Char.isDigit
  let rest := cs.dropWhile Char.isDigit
  let n := Int64.ofInt (value negative ds)
  if ds.isEmpty then .nothing
  else if n.toInt = value negative ds then .word n rest
  else .beyond rest

/-- Reads an integer that a signed word holds, and nothing else. -/
def read? (text : String) : Option Int :=
  match front text.toList with
  | .word n [] => some n.toInt
  | _ => none

/-- Why a text is refused as an integer argument. -/
inductive Issue where
  | notInteger
  | outOfRange (least greatest : Int)
  deriving Repr, DecidableEq

def Issue.message (what text : String) : Issue → String
  | notInteger => what ++ " is not an integer: '" ++ text ++ "'"
  | outOfRange least greatest =>
    what ++ " out of range [" ++ toString least ++ ", " ++ toString greatest ++ "]: " ++ text

def readWithin (text : String) (least greatest : Int) : Except Issue Int :=
  match front text.toList with
  | .word n [] =>
    if n.toInt < least ∨ greatest < n.toInt then .error (.outOfRange least greatest)
    else .ok n.toInt
  | .beyond [] => .error (.outOfRange least greatest)
  | _ => .error .notInteger

def parse (text what : String) (least greatest : Int) : Except Failure Int :=
  (readWithin text least greatest).mapError fun i => .invalidArgument (i.message what text)

/-- A delivery priority, 0 the lowest and 9 the highest, as a signed word of 32 bits. -/
def parsePriority (text : String) : Except Failure Int :=
  (parse text "priority" 0 9).map fun n => (Int32.ofInt n).toInt

/-- The number of messages in a recovery pass, at least one, as an unsigned word of 64 bits. -/
def parseBatchSize (text : String) : Except Failure Int :=
  (parse text "batch size" 1 0x7fffffff).map fun n => ((UInt64.ofInt n).toNat : Int)

end DurableTopic.Integer

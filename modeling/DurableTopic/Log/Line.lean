import DurableTopic.SubscriberKey
/-! Log lines: a message followed by fields. A value that a reader could not tell from its
surroundings stands in quotes; a field without a value is left out. -/

namespace DurableTopic.Log

/-- A named value in a log line. -/
structure Field where
  key : String
  value : String
  deriving Repr, DecidableEq, Inhabited

namespace Field

def text (key value : String) : Field := ⟨key, value⟩

def int (key : String) (value : Int) : Field := ⟨key, toString value⟩

def bool (key : String) (value : Bool) : Field := ⟨key, if value then "true" else "false"⟩

def destination (d : String) : Field := text "destination" d

def subscriber (k : SubscriberKey) : Field := text "subscriber" k.display

end Field

/-- The characters that a bare value cannot hold. -/
def separates (c : Char) : Bool := c = ' ' || c = '\t' || c = '\n' || c = '"' || c = '='

/-- How one character is written inside quotes. -/
def escape (c : Char) : List Char :=
  if c = '"' || c = '\\' then ['\\', c] else if c = '\n' then ['\\', 'n'] else [c]

/-- How a value is written: bare if it can be, else in quotes. -/
def writeValue (v : List Char) : List Char :=
  if v.any separates then '"' :: (v.flatMap escape ++ ['"']) else v

/-- How a field is written, with the blank that parts it from what stands before. -/
def writeField (f : Field) : List Char :=
  if f.value.isEmpty then [] else ' ' :: (f.key.toList ++ '=' :: writeValue f.value.toList)

def line (message : String) (fields : List Field) : String :=
  String.ofList (message.toList ++ fields.flatMap writeField)

end DurableTopic.Log

import DurableTopic.Assoc
import DurableTopic.Failure
import DurableTopic.Number.Literal
/-! Configuration documents, and the values that they stand for. A scalar is a truth value or a number
if it looks like one, and a text otherwise. What stands under one key twice goes into one value. -/

namespace DurableTopic.Config

/-- A document as it is read: an undefined node is one that the reader could not make. -/
inductive Tree where
  | undefined
  | null
  | scalar (s : String)
  | list (items : List Tree)
  | map (entries : List (String × Tree))
  deriving Repr, Inhabited

inductive Value where
  | null
  | flag (b : Bool)
  | number (x : Number.Binary64)
  | text (s : String)
  | list (items : List Value)
  | struct (fields : List (String × Value))
  deriving Repr, Inhabited

namespace Value

def items : Value → List Value
  | list items => items
  | _ => []

def fields : Value → Assoc String Value
  | struct fields => ⟨fields⟩
  | _ => ∅

def ofScalar (s : String) : Value :=
  if s = "true" then flag true
  else if s = "false" then flag false
  else match Number.Literal.read? s with
    | some x => number x
    | none => text s

def unsupported : Failure := .runtime "Unsupported YAML node"

mutual

/-- A value that a document is written into. A list goes behind the items that are there, and a map into
the fields that are there; anything else replaces what is there. -/
def write : Value → Tree → Except Failure Value
  | _, .undefined => .error unsupported
  | _, .null => .ok null
  | _, .scalar s => .ok (ofScalar s)
  | v, .list items => list <$> writeItems v.items items
  | v, .map entries => (struct ·.pairs) <$> writeEntries v.fields entries

def writeItems : List Value → List Tree → Except Failure (List Value)
  | vs, [] => .ok vs
  | vs, t :: rest => do writeItems (vs ++ [← write null t]) rest

def writeEntries : Assoc String Value → List (String × Tree) → Except Failure (Assoc String Value)
  | fs, [] => .ok fs
  | fs, (k, t) :: rest => do writeEntries (fs.put k (← write ((fs.find? k).getD null) t)) rest

end

def ofTree (t : Tree) : Except Failure Value := write null t

mutual

def numbers : Value → List Number.Binary64
  | number x => [x]
  | list items => numbersOfItems items
  | struct fields => numbersOfFields fields
  | _ => []

def numbersOfItems : List Value → List Number.Binary64
  | [] => []
  | v :: rest => v.numbers ++ numbersOfItems rest

def numbersOfFields : List (String × Value) → List Number.Binary64
  | [] => []
  | (_, v) :: rest => v.numbers ++ numbersOfFields rest

end

end Value
end DurableTopic.Config

import DurableTopic.Repository.Embedded.Switch
import DurableTopic.Repository.Embedded.Tables
import DurableTopic.Repository.Embedded.Token
/-! Statements that an administrator runs on an embedded database, and how they are read. -/

namespace DurableTopic.Repository.Embedded

/-- What is asked of a trigger that is to be made. -/
structure TriggerRequest where
  name : String
  /-- Whether a trigger that is there already is left as it is. -/
  unlessExists : Bool := false
  verb : Verb
  table : String
  /-- The text of the trigger. What is wrong with a body counts only after the rest is checked. -/
  body : Except String (Option String)

/-- A statement of an administrator. -/
inductive Statement where
  | begin (immediate : Bool)
  | commit
  | rollback
  | dropTable (name : String) (ifExists : Bool)
  | dropTrigger (name : String) (ifExists : Bool)
  | createTrigger (r : TriggerRequest)
  /-- Refuse all writes of this connection from now on, or no longer. -/
  | readOnly (on : Bool)
  /-- Something that changes nothing here. -/
  | idle

/-- Reading tokens in order. -/
abbrev Reading := StateT (List Token) (Except String)

namespace Reading

def refusal : List Token → String
  | [] => "incomplete input"
  | .unknown s :: _ => "unrecognized token: \"" ++ s ++ "\""
  | t :: _ => "near \"" ++ t.written ++ "\": syntax error"

/-- Reads a token of a kind, if it comes next. -/
def next? {α : Type} (kind : Token → Option α) : Reading (Option α)
  | [] => .ok (none, [])
  | t :: ts =>
    match kind t with
    | some a => .ok (some a, ts)
    | none => .ok (none, t :: ts)

/-- Reads a token of a kind, which must come next. -/
def next {α : Type} (kind : Token → Option α) : Reading α := do
  match ← next? kind with
  | some a => return a
  | none => throw (refusal (← get))

/-- The words that cannot be names. -/
def reserved : List String :=
  ["ADD", "ALL", "ALTER", "AND", "AS", "AUTOINCREMENT", "BETWEEN", "CASE", "CHECK", "COLLATE",
   "COMMIT", "CONSTRAINT", "CREATE", "DEFAULT", "DEFERRABLE", "DELETE", "DISTINCT", "DROP", "ELSE",
   "ESCAPE", "EXCEPT", "EXISTS", "FOREIGN", "FROM", "GROUP", "HAVING", "IN", "INDEX", "INSERT",
   "INTERSECT", "INTO", "IS", "ISNULL", "JOIN", "LIMIT", "NOT", "NOTHING", "NOTNULL", "NULL", "ON", "OR",
   "ORDER", "PRIMARY", "REFERENCES", "RETURNING", "SELECT", "SET", "TABLE", "THEN", "TO", "TRANSACTION",
   "UNION", "UNIQUE", "UPDATE", "USING", "VALUES", "WHEN", "WHERE"]

/-- One of some words, in any case, as it is in the list. -/
def oneOf (words : List String) : Token → Option String
  | .word s => words.find? (· = s.toUpper)
  | _ => none

def sign (s : String) : Token → Option Unit
  | .mark m => if m = s then some () else none
  | _ => none

def called : Token → Option String
  | .word s => if s.toUpper ∈ reserved then none else some s
  | .quoted s _ | .name s _ => some s
  | _ => none

def word (s : String) : Reading Unit := discard (next (oneOf [s]))

/-- Reads a word, if it comes next. -/
def word? (s : String) : Reading Bool := Option.isSome <$> next? (oneOf [s])

def mark (s : String) : Reading Unit := next (sign s)

/-- Reads a mark, if it comes next. -/
def mark? (s : String) : Reading Bool := Option.isSome <$> next? (sign s)

/-- Reads the end of a statement: a semicolon, or the end of everything. -/
def finish : Reading Unit := do
  if !(← mark? ";") && !(← get).isEmpty then throw (refusal (← get))

/-- Reads the word for a transaction, which may have a name. -/
def transaction : Reading Unit := do
  if ← word? "TRANSACTION" then discard (next? called)

/-- Reads the words for something that need not exist. -/
def ifExists : Reading Bool := do
  let asked ← word? "IF"
  if asked then word "EXISTS"
  return asked

/-- Reads the words for something that may exist already. -/
def unlessExists : Reading Bool := do
  let asked ← word? "IF"
  if asked then
    word "NOT"
    word "EXISTS"
  return asked

def value : Reading String := do
  let number : Token → Option String
    | .number s => some s
    | _ => none
  if ← mark? "-" then return "-" ++ (← next number)
  else if ← mark? "+" then next number
  else next fun t => (number t <|> called t) <|> oneOf ["ON", "DELETE", "DEFAULT"] t

def setting : Reading Statement := do
  let name ← next called
  let given ← next? fun t => sign "=" t <|> sign "==" t
  let enclosed ← if given.isSome then pure false else mark? "("
  if given.isNone && !enclosed then return .idle
  let v ← value
  if enclosed then mark ")"
  return if name.toLower = "query_only" then .readOnly (isYes v.toList) else .idle

/-- Reads another name for a result, if there is one. -/
def label : Reading Unit := do
  if ← word? "AS" then discard (next called) else discard (next? called)

def constant : Token → Option Unit
  | .number _ | .quoted .. => some ()
  | t => (oneOf ["NULL"] t).map fun _ => ()

mutual

def expression : Nat → Reading (Option String)
  | 0 => do throw (refusal (← get))
  | n + 1 => do
    if ← word? "RAISE" then
      mark "("
      word "ABORT"
      mark ","
      let text ← next called
      mark ")"
      return some text
    if (← next? constant).isSome then return none
    if ← mark? "(" then
      expressions n
      mark ")"
      return none
    discard (next called)
    if ← mark? "(" then
      if ← mark? ")" then return none
      expressions n
      mark ")"
    return none

/-- Reads expressions between commas. -/
def expressions : Nat → Reading Unit
  | 0 => do throw (refusal (← get))
  | n + 1 => do
    discard (expression n)
    if ← mark? "," then expressions n

end

/-- Reads results between commas, of which the first refusal counts. -/
def results : Nat → Reading (Option String)
  | 0 => do throw (refusal (← get))
  | n + 1 => do
    let text ← expression n
    label
    if ← mark? "," then return text <|> (← results n)
    return text

/-- Reads the statements inside a trigger, of which the first refusal counts, and the end of the
trigger. -/
def queries : Nat → Reading (Option String)
  | 0 => do throw (refusal (← get))
  | n + 1 => do
    word "SELECT"
    let text ← results n
    mark ";"
    if ← word? "END" then return text
    return text <|> (← queries n)

/-- Reads the body of a trigger, behind which its statement must end. -/
def body : Reading (Except String (Option String)) := fun ts =>
  let reading : Reading (Option String) := do
    let text ← queries (2 * ts.length + 2)
    let rest ← get
    finish
    set rest
    return text
  match reading.run ts with
  | .ok (text, rest) => .ok (.ok text, rest)
  | .error e => .ok (.error e, [])

def trigger : Reading TriggerRequest := do
  let unlessExists ← unlessExists
  let name ← next called
  discard (word? "BEFORE")
  let verb ← next fun t => (oneOf ["INSERT", "UPDATE", "DELETE"] t).bind Verb.ofName?
  word "ON"
  let table ← next called
  if ← word? "FOR" then
    word "EACH"
    word "ROW"
  word "BEGIN"
  return { name, unlessExists, verb, table, body := ← body }

def statement : Reading Statement := do
  match ← next (oneOf ["BEGIN", "COMMIT", "END", "ROLLBACK", "DROP", "PRAGMA", "CREATE"]) with
  | "BEGIN" =>
    let kind ← next? (oneOf ["DEFERRED", "IMMEDIATE", "EXCLUSIVE"])
    transaction
    return .begin (kind.any (· ≠ "DEFERRED"))
  | "COMMIT" | "END" => transaction; return .commit
  | "ROLLBACK" => transaction; return .rollback
  | "DROP" =>
    let kind ← next (oneOf ["TABLE", "TRIGGER"])
    let ifExists ← ifExists
    let name ← next called
    return if kind = "TABLE" then .dropTable name ifExists else .dropTrigger name ifExists
  | "PRAGMA" => setting
  | _ =>
    word "TRIGGER"
    return .createTrigger (← trigger)

/-- Whether a statement is done already when it is read. -/
def isImmediate : Statement → Bool
  | .readOnly _ => true
  | _ => false

/-- Whether there is no token next, or one. -/
def isKnown : List Token → Bool
  | .unknown _ :: _ => false
  | _ => true

/-- Reads statements up to the first that cannot be read, which may be done already when that is
found. There are no more of them than tokens. -/
def statements : Nat → List Token → List (Except String Statement)
  | 0, _ => []
  | n + 1, ts =>
    match ts.dropWhile (· = .mark ";") with
    | [] => []
    | ts =>
      match statement.run ts with
      | .error e => [.error e]
      | .ok (s, rest) =>
        match finish.run rest with
        | .ok (_, rest) => .ok s :: statements n rest
        | .error e => if isImmediate s && isKnown rest then [.ok s, .error e] else [.error e]

end Reading

/-- Reads a script. Statements end with semicolons, and an empty one is none. -/
def Statement.script (sql : String) : List (Except String Statement) :=
  let ts := tokens (Text.beforeNul sql).toList
  Reading.statements ts.length ts

end DurableTopic.Repository.Embedded

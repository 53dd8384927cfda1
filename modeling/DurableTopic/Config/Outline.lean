import DurableTopic.Config.Value
/-! Configuration files: nested mappings by indentation, one key to a line, and behind it a scalar, or
nothing before deeper lines. A scalar stands bare or in quotes. Other forms of a document are not
read. -/

namespace DurableTopic.Config.Outline

/-- A line: how far it is indented, its key, and what stands behind the colon. -/
structure Line where
  indent : Nat
  key : String
  value : Option Tree

def trim (cs : List Char) : List Char :=
  ((cs.dropWhile (· = ' ')).reverse.dropWhile (· = ' ')).reverse

/-- A bare scalar up to a comment, which starts behind a blank. -/
def bare : List Char → List Char
  | [] => []
  | ' ' :: '#' :: _ => []
  | c :: cs => c :: bare cs

/-- A scalar in single quotes, behind its opening quote: a quote inside is written twice. -/
def singleQuoted : List Char → Option (List Char)
  | '\x27' :: '\x27' :: cs => (singleQuoted cs).map ('\x27' :: ·)
  | '\x27' :: cs => if (trim (bare (' ' :: cs))).isEmpty then some [] else none
  | c :: cs => (singleQuoted cs).map (c :: ·)
  | [] => none

/-- The character that an escape stands for. -/
def unescape : Char → Option Char
  | 'n' => some '\n'
  | 't' => some '\t'
  | '"' => some '"'
  | '\\' => some '\\'
  | _ => none

/-- A scalar in double quotes, behind its opening quote. -/
def doubleQuoted : List Char → Option (List Char)
  | '\\' :: c :: cs => do return (← unescape c) :: (← doubleQuoted cs)
  | '"' :: cs => if (trim (bare (' ' :: cs))).isEmpty then some [] else none
  | c :: cs => (doubleQuoted cs).map (c :: ·)
  | [] => none

def readValue (cs : List Char) : Option (Option Tree) :=
  match cs.dropWhile (· = ' ') with
  | '\x27' :: rest => (singleQuoted rest).map fun s => some (.scalar (String.ofList s))
  | '"' :: rest => (doubleQuoted rest).map fun s => some (.scalar (String.ofList s))
  | _ =>
    match trim (bare (' ' :: cs)) with
    | [] => some none
    | ['~'] | ['n', 'u', 'l', 'l'] => some (some .null)
    | c :: s =>
      if c ∈ ['-', '[', '{', '&', '*', '|', '>', '!', '%'] then none
      else some (some (.scalar (String.ofList (c :: s))))

/-- Reads a line; a blank line and a comment are none. -/
def readLine (cs : List Char) : Option (Option Line) :=
  let body := cs.dropWhile (· = ' ')
  if body.isEmpty || body.head? = some '#' then some none
  else
    let key := body.takeWhile (· ≠ ':')
    match body.drop key.length with
    | ':' :: rest =>
      if rest.isEmpty || rest.head? = some ' ' then
        (readValue rest).map fun value =>
          some ⟨cs.length - body.length, String.ofList (trim key), value⟩
      else none
    | _ => none

/-- The mapping that lines describe. Lines below a key that has no value of its own, and deeper than
it, describe its value. -/
def mapping : List Line → Option (List (String × Tree))
  | [] => some []
  | l :: rest => do
    let deeper := rest.takeWhile (l.indent < ·.indent)
    let after := rest.dropWhile (l.indent < ·.indent)
    have := (List.takeWhile_sublist (l.indent < ·.indent) (l := rest)).length_le
    have := (List.dropWhile_sublist (l.indent < ·.indent) (l := rest)).length_le
    let value ← match l.value, deeper.isEmpty with
      | some v, true => some v
      | some _, false => none
      | none, true => some .null
      | none, false => (mapping deeper).map .map
    if after.head?.any (·.indent ≠ l.indent) then none
    else return (l.key, value) :: (← mapping after)
termination_by ls => ls.length
decreasing_by all_goals simp_all only [List.length_cons]; omega

/-- Reads a configuration file. An empty one is null. -/
def read? (text : String) : Option Tree := do
  let lines ← ((text.splitOn "\n").map String.toList).mapM readLine
  match ← mapping (lines.filterMap id) with
  | [] => return .null
  | entries => return .map entries

end DurableTopic.Config.Outline

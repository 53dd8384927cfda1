import DurableTopic.Text
/-! The tokens of a script of statements. Blanks and comments stand between tokens. -/

namespace DurableTopic.Repository.Embedded

/-- A token. Where it is not what it says, it comes with how it is written. -/
inductive Token where
  | word (s : String)
  /-- A text in single quotes. -/
  | quoted (s raw : String)
  /-- A name in quotes. -/
  | name (s raw : String)
  | number (s : String)
  | mark (s : String)
  /-- What is no token. -/
  | unknown (s : String)
  deriving Repr, DecidableEq

namespace Token

def written : Token → String
  | word s | number s | mark s | unknown s => s
  | quoted _ raw | name _ raw => raw

def startsWord (c : Char) : Bool := c.isAlpha || c = '_' || 0x80 ≤ c.toNat

def inWord (c : Char) : Bool := startsWord c || c.isDigit || c = '$'

def isBlank (c : Char) : Bool :=
  c = ' ' || c = '\t' || c = '\n' || c = '\x0c' || c = '\r' || c = '\ufeff'

/-- Reads up to a closing quote, which is written twice where it is meant; none if it is missing. -/
def readQuoted (quote : Char) : List Char → Option (List Char) × List Char
  | [] => (none, [])
  | [c] => (if c = quote then some [] else none, [])
  | c :: d :: cs =>
    if c = quote then
      if d = quote then let (s, rest) := readQuoted quote cs; (s.map (quote :: ·), rest)
      else (some [], d :: cs)
    else let (s, rest) := readQuoted quote (d :: cs); (s.map (c :: ·), rest)

theorem readQuoted_length (quote : Char) (cs : List Char) :
    (readQuoted quote cs).2.length ≤ cs.length := by
  fun_induction readQuoted quote cs <;> simp_all <;> omega

/-- What is behind a comment. One that is not closed goes on to the end, if there is anything in it. -/
def afterComment : List Char → List Char
  | '*' :: '/' :: cs => cs
  | _ :: cs => afterComment cs
  | [] => []

theorem afterComment_length (cs : List Char) : (afterComment cs).length ≤ cs.length := by
  fun_induction afterComment cs <;> simp_all <;> omega

def doubleMarks : List (List Char) := ["==", "<>", "<=", ">=", "!=", "||", "<<", ">>"].map (·.toList)

def marks : List Char := "(),;=.+-*/%<>|&~?".toList

/-- A quoted text as a token, by what stands behind the opening quote. -/
def quotation (quote : Char) (cs : List Char) : Token :=
  let (s, rest) := readQuoted quote cs
  let raw := String.ofList (quote :: cs.take (cs.length - rest.length))
  match s with
  | none => unknown raw
  | some s => (if quote = '\x27' then quoted else name) (String.ofList s) raw

/-- The token that starts with a character, if one does, and what is behind it. -/
def lex (c : Char) (cs : List Char) : Option Token × List Char :=
  if isBlank c then (none, cs)
  else if c = '-' && cs.head? = some '-' then (none, cs.dropWhile (· ≠ '\n'))
  else if c = '/' && cs.head? = some '*' && !cs.tail.isEmpty then (none, afterComment cs.tail)
  else if c = '\x27' || c = '"' || c = '\x60' then (quotation c cs, (readQuoted c cs).2)
  else if startsWord c then
    (word (String.ofList (c :: cs.takeWhile inWord)), cs.dropWhile inWord)
  else if c.isDigit then
    let s := c :: cs.takeWhile fun d => inWord d || d = '.'
    ((if s.all (·.isDigit) || s.take 2 = ['0', 'x'] then number else unknown) (String.ofList s),
      cs.dropWhile fun d => inWord d || d = '.')
  else if c :: cs.take 1 ∈ doubleMarks then (mark (String.ofList (c :: cs.take 1)), cs.tail)
  else (if c ∈ marks then mark (String.singleton c) else unknown (String.singleton c), cs)

theorem lex_length (c : Char) (cs : List Char) : (lex c cs).2.length ≤ cs.length := by
  have dropped (p : Char → Bool) : (cs.dropWhile p).length ≤ cs.length :=
    (List.dropWhile_sublist p).length_le
  have tail : cs.tail.length ≤ cs.length := by simp
  unfold lex
  split; · exact Nat.le_refl _
  split; · exact dropped _
  split; · exact Nat.le_trans (afterComment_length _) tail
  split; · exact readQuoted_length c cs
  split; · exact dropped _
  split; · exact dropped _
  split; · exact tail
  exact Nat.le_refl _

end Token

def tokens : List Char → List Token
  | [] => []
  | c :: cs =>
    have := Token.lex_length c cs
    (Token.lex c cs).1.toList ++ tokens (Token.lex c cs).2
termination_by cs => cs.length
decreasing_by simp only [List.length_cons]; omega

end DurableTopic.Repository.Embedded

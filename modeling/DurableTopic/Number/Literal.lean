import DurableTopic.Text
import DurableTopic.Number.Binary64
/-! Texts that are numbers: blanks, a sign, and then a decimal or hexadecimal number, infinity, or what
is no number. A text ends before its first NUL, and the empty text is zero. -/

namespace DurableTopic.Number.Literal

/-- Characters that may stand before a number. -/
def isBlank (c : Char) : Bool :=
  c = ' ' || c = '\t' || c = '\n' || c = '\x0b' || c = '\x0c' || c = '\r'

def hexDigit? (c : Char) : Option Nat :=
  if '0' ≤ c ∧ c ≤ '9' then some (c.toNat - '0'.toNat)
  else if 'a' ≤ c ∧ c ≤ 'f' then some (c.toNat - 'a'.toNat + 10)
  else if 'A' ≤ c ∧ c ≤ 'F' then some (c.toNat - 'A'.toNat + 10)
  else none

def digit? (base : Nat) (c : Char) : Option Nat := (hexDigit? c).filter (· < base)

/-- The leading digits of a text as values, and the rest. -/
def digits (base : Nat) : List Char → List Nat × List Char
  | [] => ([], [])
  | c :: cs =>
    match digit? base c with
    | some d => let (ds, rest) := digits base cs; (d :: ds, rest)
    | none => ([], c :: cs)

def ofDigits (base : Nat) (ds : List Nat) : Nat := ds.foldl (fun n d => base * n + d) 0

def sign : List Char → Bool × List Char
  | '-' :: cs => (true, cs)
  | '+' :: cs => (false, cs)
  | cs => (false, cs)

/-- The rest of a text that starts with a word in any case. -/
def afterWord? : List Char → List Char → Option (List Char)
  | [], cs => some cs
  | _ :: _, [] => none
  | w :: ws, c :: cs => if c.toLower = w then afterWord? ws cs else none

/-- Digits with an optional point among them: the number without the point, how many digits stand
behind it, and the rest. There is at least one digit. -/
def mantissa? (base : Nat) (cs : List Char) : Option (Nat × Nat × List Char) :=
  let (whole, rest) := digits base cs
  let (fraction, rest) := match rest with
    | '.' :: r => digits base r
    | _ => ([], rest)
  if whole.isEmpty && fraction.isEmpty then none
  else some (ofDigits base (whole ++ fraction), fraction.length, rest)

/-- An exponent behind its letter; none if no digits follow the letter and the sign. -/
def exponent (letter : Char) (cs : List Char) : Int × List Char :=
  match cs with
  | [] => (0, [])
  | c :: r =>
    if c.toLower ≠ letter then (0, cs)
    else
      let (negative, r) := sign r
      match digits 10 r with
      | ([], _) => (0, cs)
      | (ds, rest) => (if negative then -(ofDigits 10 ds : Int) else ofDigits 10 ds, rest)

/-- A number with an exponent beyond this is infinite or zero. -/
def farthest : Int := 5000

/-- `m` times a power of a base, which is at least two. -/
def power (negative : Bool) (m base : Nat) (e : Int) : Binary64 :=
  if m = 0 ∨ e + Nat.log2 m + 1 < -farthest then .zero negative
  else if farthest < e then .infinity negative
  else if 0 ≤ e then .ofRatio negative (m * Nat.pow base e.toNat) 1
  else .ofRatio negative m (Nat.pow base (-e).toNat)

/-- What follows a word for no number: letters, digits and underscores in brackets, or nothing. -/
def payload (cs : List Char) : List Char :=
  match cs with
  | '(' :: r =>
    match r.dropWhile fun c => c.isAlphanum || c = '_' with
    | ')' :: rest => rest
    | _ => cs
  | _ => cs

/-- A number without its sign, and the rest. -/
def unsigned? (negative : Bool) (cs : List Char) : Option (Binary64 × List Char) :=
  match afterWord? "infinity".toList cs, afterWord? "inf".toList cs, afterWord? "nan".toList cs with
  | some rest, _, _ | none, some rest, _ => some (.infinity negative, rest)
  | none, none, some rest => some (.nan negative, payload rest)
  | none, none, none =>
    match (afterWord? "0x".toList cs).bind (mantissa? 16) with
    | some (m, places, rest) =>
      let (e, rest) := exponent 'p' rest
      some (power negative m 2 (e - 4 * places), rest)
    | none =>
      (mantissa? 10 cs).map fun (m, places, rest) =>
        let (e, rest) := exponent 'e' rest
        (power negative m 10 (e - places), rest)

def read? (text : String) : Option Binary64 :=
  match (Text.beforeNul text).toList with
  | [] => some (.zero false)
  | cs =>
    let (negative, cs) := sign (cs.dropWhile isBlank)
    match unsigned? negative cs with
    | some (x, []) => some x
    | _ => none

end DurableTopic.Number.Literal

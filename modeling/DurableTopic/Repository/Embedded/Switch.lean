import DurableTopic.Number.Literal
/-! Values that turn something on or off. -/

namespace DurableTopic.Repository.Embedded

/-- Whether a value turns something on: it is a number other than zero, of which only the last eight
bits count, or a word for yes. What follows the digits of a number does not count. -/
def isYes (value : List Char) : Bool :=
  match value.map Char.toLower with
  | '0' :: 'x' :: cs => holds (Number.Literal.ofDigits 16 (Number.Literal.digits 16 cs).1)
  | c :: cs =>
    if c.isDigit then holds (Number.Literal.ofDigits 10 (Number.Literal.digits 10 (c :: cs)).1)
    else String.ofList (c :: cs) ∈ ["on", "yes", "true"]
  | [] => false
where
  holds (n : Nat) : Bool := n < 0x80000000 && n % 256 ≠ 0

end DurableTopic.Repository.Embedded

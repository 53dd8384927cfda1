/-! Binary floating-point numbers of 64 bits, as their bits, and the one that is nearest to a
quotient. Main statement: rounding a quotient to an integer errs by at most a half. -/

namespace DurableTopic.Number

/-- A binary64 number. -/
structure Binary64 where
  bits : UInt64
  deriving Repr, DecidableEq, Inhabited

/-- The integer nearest to a quotient; a half goes to the even neighbour. -/
def roundDiv (num den : Nat) : Nat :=
  let q := num / den
  let r := num % den
  if 2 * r < den ∨ (2 * r = den ∧ q % 2 = 0) then q else q + 1

theorem roundDiv_error (num den : Nat) (h : 0 < den) :
    2 * num ≤ 2 * (roundDiv num den * den) + den ∧ 2 * (roundDiv num den * den) ≤ 2 * num + den := by
  have hq := Nat.div_add_mod num den
  have hr := Nat.mod_lt num h
  simp only [roundDiv]
  split
  · rw [Nat.mul_comm (num / den)]; omega
  · rw [Nat.add_mul, Nat.mul_comm (num / den)]; omega

namespace Binary64

def signBit : Nat := 0x8000000000000000

/-- Infinity, and the first pattern that is no finite number. -/
def infinityBits : Nat := 0x7ff0000000000000

/-- The lowest bit of the exponent, and the weight of the place before the point that is not
written. -/
def unit : Nat := 0x10000000000000

/-- A number from its sign and its other bits. -/
def make (negative : Bool) (magnitude : Nat) : Binary64 :=
  ⟨UInt64.ofNat (magnitude + if negative then signBit else 0)⟩

def zero (negative : Bool) : Binary64 := make negative 0

def infinity (negative : Bool) : Binary64 := make negative infinityBits

def nan (negative : Bool) : Binary64 := make negative (infinityBits + unit / 2)

/-- All bits but the sign. -/
def magnitude (x : Binary64) : Nat := x.bits.toNat % signBit

def negative (x : Binary64) : Bool := signBit ≤ x.bits.toNat

def isNan (x : Binary64) : Bool := infinityBits < x.magnitude

def isFinite (x : Binary64) : Bool := x.magnitude < infinityBits

/-- `num / den` scaled by a power of two and rounded. -/
def scaled (num den : Nat) (e : Int) : Nat :=
  if 0 ≤ e then roundDiv num (den <<< e.toNat) else roundDiv (num <<< (-e).toNat) den

/-- The exponent of the last place of the number nearest to `num / den`: 53 places fit, and no place
is below the smallest number. -/
def lastPlace (num den : Nat) : Int :=
  let e := max (-1074) ((Nat.log2 num : Int) - Nat.log2 den - 53)
  let q : Nat := if 0 ≤ e then num / (den <<< e.toNat) else (num <<< (-e).toNat) / den
  if q < 2 * unit then e else e + 1

/-- The number nearest to `num / den`, infinity if that is too large. A half goes to the even
neighbour. Bits of an exponent and of the places below it add up, so a carry is no special case. -/
def ofRatio (negative : Bool) (num den : Nat) : Binary64 :=
  if num = 0 then zero negative
  else
    let e := lastPlace num den
    make negative (min infinityBits ((e + 1074).toNat * unit + scaled num den e))

/-- The value of a finite number as an integer and a power of two. -/
def parts (x : Binary64) : Nat × Int :=
  let exponent : Nat := x.magnitude / unit
  let fraction : Nat := x.magnitude % unit
  if exponent = 0 then (fraction, -1074) else (fraction + unit, (exponent : Int) - 1075)

/-- The value of a number that is a natural number. -/
def natural? (x : Binary64) : Option Nat :=
  if infinityBits ≤ x.magnitude then none
  else
    let (m, e) := x.parts
    if m = 0 then some 0
    else if x.negative then none
    else if 0 ≤ e then some (m <<< e.toNat)
    else
      let divisor := 1 <<< (-e).toNat
      if m % divisor = 0 then some (m / divisor) else none

end Binary64
end DurableTopic.Number

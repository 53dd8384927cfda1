import DurableTopic.Text
/-! Integers in base 128, the lowest digit first; every byte but the last has its high bit set.
Main statement: reading takes at least one byte. -/

namespace DurableTopic.Wire

def writeVarint (n : Nat) : Bytes :=
  if n < 128 then [UInt8.ofNat n] else UInt8.ofNat (n % 128 + 128) :: writeVarint (n / 128)
termination_by n
decreasing_by omega

/-- Reads a number of at most `k` bytes. -/
def readDigits : Nat → Bytes → Option (Nat × Bytes)
  | 0, _ | _, [] => none
  | k + 1, b :: bs =>
    if b.toNat < 128 then some (b.toNat, bs)
    else (readDigits k bs).map fun (n, rest) => (b.toNat - 128 + 128 * n, rest)

/-- Reads a 64-bit number: ten bytes at most, and bits above the 64th are lost. -/
def readVarint (bs : Bytes) : Option (Nat × Bytes) :=
  (readDigits 10 bs).map fun (n, rest) => (n % 0x10000000000000000, rest)

theorem readDigits_length {k : Nat} {bs : Bytes} {n : Nat} {rest : Bytes}
    (h : readDigits k bs = some (n, rest)) : rest.length < bs.length := by
  induction k generalizing bs n with
  | zero => simp [readDigits] at h
  | succ k ih =>
    cases bs with
    | nil => simp [readDigits] at h
    | cons b bs =>
      rw [readDigits] at h
      split at h
      · cases h; simp
      · obtain ⟨⟨m, r⟩, hm, he⟩ := Option.map_eq_some_iff.1 h
        cases he
        have := ih hm
        simp only [List.length_cons]
        omega

theorem readVarint_length {bs : Bytes} {n : Nat} {rest : Bytes}
    (h : readVarint bs = some (n, rest)) : rest.length < bs.length := by
  obtain ⟨⟨m, r⟩, hm, he⟩ := Option.map_eq_some_iff.1 h
  cases he
  exact readDigits_length hm

end DurableTopic.Wire

import DurableTopic.Wire.Varint
/-! Numbered fields: the outer shape of a stored message. A message is a sequence of fields, each a
tag that holds its number and the kind of its payload, and then the payload. -/

namespace DurableTopic.Wire

/-- What a field carries. -/
inductive Payload where
  | int (n : Nat)
  /-- Bytes that say how many they are. -/
  | bytes (b : Bytes)
  /-- Eight or four bytes. No field of a message is of this kind. -/
  | fixed (b : Bytes)
  deriving Repr, DecidableEq

structure Field where
  number : Nat
  payload : Payload
  deriving Repr, DecidableEq

def Field.tag (f : Field) : Nat :=
  8 * f.number + match f.payload with
    | .int _ => 0
    | .bytes _ => 2
    | .fixed b => if b.length = 8 then 1 else 5

def Field.write (f : Field) : Bytes :=
  writeVarint f.tag ++ match f.payload with
    | .int n => writeVarint n
    | .bytes b => writeVarint b.length ++ b
    | .fixed b => b

/-- The first `n` bytes and those behind them. -/
def splitAt? (n : Nat) (bs : Bytes) : Option (Bytes × Bytes) :=
  if n ≤ bs.length then some (bs.take n, bs.drop n) else none

/-- One step through the bytes of a message. -/
inductive Item where
  | field (f : Field)
  /-- A group of fields begins, or ends. Groups are only ever skipped. -/
  | groupStart (number : Nat)
  | groupEnd (number : Nat)

/-- Reads what stands behind a tag. -/
def readItem (tag : Nat) (bs : Bytes) : Option (Item × Bytes) :=
  let number := tag / 8
  if number = 0 ∨ 0x100000000 ≤ tag then none
  else match tag % 8 with
    | 0 => (readVarint bs).map fun (n, rest) => (.field ⟨number, .int n⟩, rest)
    | 1 => (splitAt? 8 bs).map fun (b, rest) => (.field ⟨number, .fixed b⟩, rest)
    | 2 => readVarint bs >>= fun (n, rest) =>
        (splitAt? n rest).map fun (b, rest) => (.field ⟨number, .bytes b⟩, rest)
    | 3 => some (.groupStart number, bs)
    | 4 => some (.groupEnd number, bs)
    | 5 => (splitAt? 4 bs).map fun (b, rest) => (.field ⟨number, .fixed b⟩, rest)
    | _ => none

theorem splitAt?_length {n : Nat} {bs b rest : Bytes} (h : splitAt? n bs = some (b, rest)) :
    rest.length ≤ bs.length := by
  unfold splitAt? at h
  split at h
  · cases h; simp
  · cases h

theorem readItem_length {tag : Nat} {bs : Bytes} {i : Item} {rest : Bytes}
    (h : readItem tag bs = some (i, rest)) : rest.length ≤ bs.length := by
  unfold readItem at h
  simp only at h
  split at h
  · cases h
  · split at h
    · obtain ⟨⟨n, r⟩, hn, he⟩ := Option.map_eq_some_iff.1 h
      cases he
      exact Nat.le_of_lt (readVarint_length hn)
    · obtain ⟨⟨n, r⟩, hn, he⟩ := Option.map_eq_some_iff.1 h
      cases he
      exact splitAt?_length hn
    · obtain ⟨⟨n, r⟩, hn, he⟩ := Option.bind_eq_some_iff.1 h
      obtain ⟨⟨b, r'⟩, hb, he⟩ := Option.map_eq_some_iff.1 he
      cases he
      exact Nat.le_trans (splitAt?_length hb) (Nat.le_of_lt (readVarint_length hn))
    · cases h; exact Nat.le_refl _
    · cases h; exact Nat.le_refl _
    · obtain ⟨⟨n, r⟩, hn, he⟩ := Option.map_eq_some_iff.1 h
      cases he
      exact splitAt?_length hn
    · cases h

def deepestGroup : Nat := 100

/-- Reads all fields that stand outside of groups. The list holds the numbers of the groups that
have begun, the innermost first. -/
def readFields (groups : List Nat) (bs : Bytes) : Option (List Field) :=
  if bs.isEmpty then if groups.isEmpty then some [] else none
  else
    match hv : readVarint bs with
    | none => none
    | some (tag, body) =>
      match hi : readItem tag body with
      | none => none
      | some (item, rest) =>
        have : rest.length < bs.length :=
          Nat.lt_of_le_of_lt (readItem_length hi) (readVarint_length hv)
        match item with
        | .field f =>
          (readFields groups rest).map fun fs => if groups.isEmpty then f :: fs else fs
        | .groupStart n =>
          if groups.length < deepestGroup then readFields (n :: groups) rest else none
        | .groupEnd n =>
          match groups with
          | [] => none
          | g :: gs => if g = n then readFields gs rest else none
termination_by bs.length

end DurableTopic.Wire

import DurableTopic.Wire.Codec
/-! Which bytes are numbers, fields and groups, whoever wrote them. Main statements: whole items are read
one after the other, and bytes that end inside a field are not read. -/
namespace DurableTopic.Wire

/-- More bytes than a machine holds, and the first number that is not read back. -/
def wordSize : Nat := 0x10000000000000000

/-- The bytes of a number, as few as can be or more: each but the last has its high bit set. -/
inductive Digits : Bytes → Nat → Prop where
  | last {b : UInt8} (h : b.toNat < 128) : Digits [b] b.toNat
  | more {b : UInt8} {bs : Bytes} {n : Nat} (h : 128 ≤ b.toNat) (hd : Digits bs n) :
      Digits (b :: bs) (b.toNat - 128 + 128 * n)

/-- The bytes of a 64-bit number. Bits above the 64th are lost. -/
inductive Varint : Bytes → Nat → Prop where
  | mk {bs : Bytes} {n : Nat} (hl : bs.length ≤ 10) (hd : Digits bs n) : Varint bs (n % wordSize)

/-- The bytes of a tag: the number of a field, and the kind of what follows. -/
structure Tag (bs : Bytes) (number kind : Nat) : Prop where
  pos : 0 < number
  known : kind < 8
  small : 8 * number + kind < 0x100000000
  varint : Varint bs (8 * number + kind)

/-- The bytes of a whole item. -/
inductive Whole : Bytes → Item → Prop where
  | int {t b : Bytes} {number n : Nat} (ht : Tag t number 0) (hb : Varint b n) :
      Whole (t ++ b) (.field ⟨number, .int n⟩)
  | long {t b : Bytes} {number : Nat} (ht : Tag t number 1) (hb : b.length = 8) :
      Whole (t ++ b) (.field ⟨number, .fixed b⟩)
  | bytes {t l b : Bytes} {number : Nat} (ht : Tag t number 2) (hl : Varint l b.length) :
      Whole (t ++ (l ++ b)) (.field ⟨number, .bytes b⟩)
  | groupStart {t : Bytes} {number : Nat} (ht : Tag t number 3) : Whole t (.groupStart number)
  | groupEnd {t : Bytes} {number : Nat} (ht : Tag t number 4) : Whole t (.groupEnd number)
  | short {t b : Bytes} {number : Nat} (ht : Tag t number 5) (hb : b.length = 4) :
      Whole (t ++ b) (.field ⟨number, .fixed b⟩)

/-- The bytes of some items, one after the other. -/
inductive Items : Bytes → List Item → Prop where
  | nil : Items [] []
  | cons {b bs : Bytes} {i : Item} {is : List Item} (h : Whole b i) (hs : Items bs is) :
      Items (b ++ bs) (i :: is)

/-- The first bytes of a number, without its last one. -/
def Unended (bs : Bytes) : Prop := ∀ b ∈ bs, 128 ≤ b.toNat

/-- The first bytes of a field: they end inside its tag, or inside what follows it. -/
inductive Cut : Bytes → Prop where
  | tag {bs : Bytes} (hne : bs ≠ []) (h : Unended bs) : Cut bs
  | int {t bs : Bytes} {number : Nat} (ht : Tag t number 0) (h : Unended bs) : Cut (t ++ bs)
  | long {t bs : Bytes} {number : Nat} (ht : Tag t number 1) (h : bs.length < 8) : Cut (t ++ bs)
  | size {t bs : Bytes} {number : Nat} (ht : Tag t number 2) (h : Unended bs) : Cut (t ++ bs)
  | bytes {t l bs : Bytes} {number n : Nat} (ht : Tag t number 2) (hl : Varint l n)
      (h : bs.length < n) : Cut (t ++ (l ++ bs))
  | short {t bs : Bytes} {number : Nat} (ht : Tag t number 5) (h : bs.length < 4) : Cut (t ++ bs)

/-- The groups that are open behind some items, the innermost first. There are none if a group ends
that is not the innermost one. -/
def openAfter : List Nat → List Item → Option (List Nat)
  | gs, [] => some gs
  | gs, .field _ :: is => openAfter gs is
  | gs, .groupStart n :: is => openAfter (n :: gs) is
  | [], .groupEnd _ :: _ => none
  | g :: gs, .groupEnd n :: is => if g = n then openAfter gs is else none

/-- A field stands among some bytes, outside of all groups. What follows it may be anything. -/
def Stands (f : Field) (bs : Bytes) : Prop :=
  ∃ before w after is, bs = before ++ (w ++ after) ∧ Items before is ∧ openAfter [] is = some [] ∧
    Whole w (.field f)

variable {bs b t l rest : Bytes} {n k number kind tag : Nat} {i : Item} {is : List Item}
  {gs : List Nat} {f : Field}

theorem Digits.ne_nil (h : Digits bs n) : bs ≠ [] := by cases h <;> simp

theorem Varint.ne_nil (h : Varint bs n) : bs ≠ [] := by
  cases h with
  | mk _ hd => exact hd.ne_nil

theorem readDigits_append (h : Digits bs n) (hk : bs.length ≤ k) :
    readDigits k (bs ++ rest) = some (n, rest) := by
  induction h generalizing k with
  | @last b hb =>
    obtain ⟨k, rfl⟩ : ∃ j, k = j + 1 := ⟨k - 1, by simp at hk; omega⟩
    simp [readDigits, hb]
  | @more b bs n hb _ ih =>
    obtain ⟨k, rfl⟩ : ∃ j, k = j + 1 := ⟨k - 1, by simp at hk; omega⟩
    have hlen : bs.length ≤ k := by simpa using hk
    simp [readDigits, ih hlen, Nat.not_lt.2 hb]

/-- A number is read, and what stands behind it is left. -/
theorem readVarint_append (h : Varint bs n) : readVarint (bs ++ rest) = some (n, rest) := by
  cases h with
  | mk hl hd =>
    rw [readVarint, readDigits_append hd hl]
    rfl

theorem readDigits_unended (h : Unended bs) : readDigits k bs = none := by
  induction bs generalizing k with
  | nil => cases k <;> rfl
  | cons b bs ih =>
    cases k with
    | zero => rfl
    | succ k =>
      have hb : ¬ b.toNat < 128 := Nat.not_lt.2 (h b List.mem_cons_self)
      rw [readDigits, if_neg hb, ih fun c hc => h c (List.mem_cons_of_mem _ hc)]
      rfl

theorem readVarint_unended (h : Unended bs) : readVarint bs = none := by
  rw [readVarint, readDigits_unended h]
  rfl

theorem splitAt?_append (b rest : Bytes) : splitAt? b.length (b ++ rest) = some (b, rest) := by
  simp [splitAt?]

theorem splitAt?_short (h : bs.length < n) : splitAt? n bs = none := if_neg (Nat.not_le.2 h)

/-- Reads what stands behind a tag, by its kind. -/
def readKind (number : Nat) (bs : Bytes) : Nat → Option (Item × Bytes)
  | 0 => (readVarint bs).map fun (n, rest) => (.field ⟨number, .int n⟩, rest)
  | 1 => (splitAt? 8 bs).map fun (b, rest) => (.field ⟨number, .fixed b⟩, rest)
  | 2 => readVarint bs >>= fun (n, rest) =>
      (splitAt? n rest).map fun (b, rest) => (.field ⟨number, .bytes b⟩, rest)
  | 3 => some (.groupStart number, bs)
  | 4 => some (.groupEnd number, bs)
  | 5 => (splitAt? 4 bs).map fun (b, rest) => (.field ⟨number, .fixed b⟩, rest)
  | _ => none

/-- The number and the kind are read from a tag. -/
theorem readItem_tag (h : Tag t number kind) :
    readItem (8 * number + kind) bs = readKind number bs kind := by
  have hkind := h.known
  have hpos := h.pos
  have hsmall := h.small
  have hd : (8 * number + kind) / 8 = number := by omega
  have hm : (8 * number + kind) % 8 = kind := by omega
  have hfine : ¬ (number = 0 ∨ 0x100000000 ≤ 8 * number + kind) := by omega
  simp only [readItem, hd, hm, if_neg hfine]
  rfl

/-- A whole item is read behind its tag. -/
theorem readItem_whole (h : Whole b i) (rest : Bytes) : ∃ t body number kind, b = t ++ body ∧
    Tag t number kind ∧ readItem (8 * number + kind) (body ++ rest) = some (i, rest) := by
  cases h with
  | int ht hb =>
    exact ⟨_, _, _, _, rfl, ht, by rw [readItem_tag ht, readKind, readVarint_append hb]; rfl⟩
  | long ht hb | short ht hb =>
    exact ⟨_, _, _, _, rfl, ht, by rw [readItem_tag ht, readKind, ← hb, splitAt?_append]; rfl⟩
  | bytes ht hl =>
    refine ⟨_, _, _, _, rfl, ht, ?_⟩
    rw [readItem_tag ht, List.append_assoc]
    simp only [readKind, readVarint_append hl, Option.bind_eq_bind, Option.bind_some,
      splitAt?_append, Option.map_some]
  | groupStart ht | groupEnd ht =>
    exact ⟨_, [], _, _, (List.append_nil _).symm, ht, by rw [readItem_tag ht]; rfl⟩

/-- Reads what stands behind an item. -/
def readOn (rest : Bytes) : Item → List Nat → Option (List Field)
  | .field f, gs => (readFields gs rest).map fun fs => if gs.isEmpty then f :: fs else fs
  | .groupStart n, gs => if gs.length < deepestGroup then readFields (n :: gs) rest else none
  | .groupEnd _, [] => none
  | .groupEnd n, g :: gs => if g = n then readFields gs rest else none

/-- An item is read, and then what stands behind it. -/
theorem readFields_step (hv : readVarint bs = some (tag, b)) (hi : readItem tag b = some (i, rest)) :
    readFields gs bs = readOn rest i gs := by
  have hne : bs.isEmpty = false := by
    cases bs with
    | nil => cases hv
    | cons b bs => rfl
  rw [readFields, if_neg (by simp [hne])]
  split
  · rename_i hnone
    cases hv.symm.trans hnone
  · rename_i hsome
    cases hv.symm.trans hsome
    split
    · rename_i hnone
      cases hi.symm.trans hnone
    · rename_i hsome
      cases hi.symm.trans hsome
      cases i with
      | groupEnd n => cases gs <;> rfl
      | _ => rfl

theorem readFields_stop (hne : bs ≠ [])
    (h : ∀ tag b, readVarint bs = some (tag, b) → readItem tag b = none) :
    readFields gs bs = none := by
  rw [readFields, if_neg (by simpa using hne)]
  split
  · rfl
  · rename_i hsome
    split
    · rfl
    · rename_i hi
      cases (h _ _ hsome).symm.trans hi

/-- A field outside of all groups is read, and then what stands behind it. -/
theorem readFields_field (h : Whole b (.field f)) :
    readFields [] (b ++ rest) = (readFields [] rest).map (f :: ·) := by
  obtain ⟨t, body, number, kind, rfl, ht, hi⟩ := readItem_whole h rest
  rw [List.append_assoc, readFields_step (readVarint_append ht.varint) hi]
  rfl

/-- Whole items are read, and what follows them is read with the groups that they leave open. -/
theorem readFields_items (gs : List Nat) (rest : Bytes) (h : Items bs is) :
    readFields gs (bs ++ rest) = none ∨ ∃ fs gs', openAfter gs is = some gs' ∧
      readFields gs (bs ++ rest) = (readFields gs' rest).map (fs ++ ·) := by
  induction h generalizing gs with
  | nil => exact Or.inr ⟨[], gs, rfl, by simp⟩
  | @cons b bs i is hw _ ih =>
    obtain ⟨t, body, number, kind, rfl, ht, hi⟩ := readItem_whole hw (bs ++ rest)
    rw [List.append_assoc, List.append_assoc,
      readFields_step (readVarint_append ht.varint) hi]
    cases i with
    | field f =>
      rcases ih gs with hnone | ⟨fs, gs', ho, hfs⟩
      · exact Or.inl (by rw [readOn, hnone]; rfl)
      · refine Or.inr ⟨if gs.isEmpty then f :: fs else fs, gs', ho, ?_⟩
        rw [readOn, hfs, Option.map_map]
        congr 1
        funext l
        split <;> simp [*]
    | groupStart n =>
      by_cases hdeep : gs.length < deepestGroup
      · rw [readOn, if_pos hdeep]
        exact ih (n :: gs)
      · exact Or.inl (by rw [readOn, if_neg hdeep])
    | groupEnd n =>
      cases gs with
      | nil => exact Or.inl rfl
      | cons g gs =>
        by_cases hg : g = n
        · rw [readOn, if_pos hg, openAfter, if_pos hg]
          exact ih gs
        · exact Or.inl (by rw [readOn, if_neg hg])

/-- Nothing is read of bytes that end inside a field. -/
theorem readFields_cut (h : Cut bs) : readFields gs bs = none := by
  have hbehind : ∀ {t body : Bytes} {number kind : Nat}, Tag t number kind →
      readItem (8 * number + kind) body = none → readFields gs (t ++ body) = none := by
    intro t body number kind ht hi
    refine readFields_stop (by simp [ht.varint.ne_nil]) fun tag b hv => ?_
    cases (readVarint_append ht.varint).symm.trans hv
    exact hi
  cases h with
  | tag hne h => exact readFields_stop hne fun _ _ hv => by cases (readVarint_unended h).symm.trans hv
  | int ht h | size ht h =>
    refine hbehind ht ?_
    rw [readItem_tag ht, readKind, readVarint_unended h]
    rfl
  | long ht h | short ht h =>
    refine hbehind ht ?_
    rw [readItem_tag ht, readKind, splitAt?_short h]
    rfl
  | bytes ht hl h =>
    refine hbehind ht ?_
    rw [readItem_tag ht, readKind, readVarint_append hl]
    simp [splitAt?_short h]

end DurableTopic.Wire

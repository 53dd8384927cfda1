/-! Text as the library sees it: its bytes, and the part of it that a reader of
NUL-terminated text sees. Main statements: reading the bytes of a text gives the text back, and
cutting a text twice cuts it once. -/

namespace DurableTopic

abbrev Bytes := List UInt8

namespace Text

/-- The part of a text before its first NUL character. -/
def beforeNul (s : String) : String :=
  String.ofList (s.toList.takeWhile (· ≠ '\x00'))

def NulFree (s : String) : Prop := ∀ c ∈ s.toList, c ≠ '\x00'

instance (s : String) : Decidable (NulFree s) := List.decidableBAll _ s.toList

def utf8 (s : String) : Bytes := s.toByteArray.data.toList

/-- The text with these bytes, if they are valid UTF-8. -/
def ofUtf8? (b : Bytes) : Option String := String.fromUTF8? ⟨b.toArray⟩

/-- The pieces between the places where a byte stands. -/
def pieces (mark : UInt8) : Bytes → List Bytes
  | [] => [[]]
  | b :: bs =>
    match b == mark, pieces mark bs with
    | true, rest => [] :: rest
    | false, [] => [[b]]
    | false, piece :: rest => (b :: piece) :: rest

theorem ofUtf8?_utf8 (s : String) : ofUtf8? (utf8 s) = some s := by
  have h : (⟨(utf8 s).toArray⟩ : ByteArray) = s.toByteArray := by simp [utf8]
  rw [ofUtf8?, h, String.fromUTF8?, dif_pos s.isValidUTF8]
  rfl

theorem beforeNul_eq_self {s : String} (h : NulFree s) : beforeNul s = s := by
  have : s.toList.takeWhile (· ≠ '\x00') = s.toList := by
    have : (s.toList ++ []).takeWhile (· ≠ '\x00') = s.toList ++ [].takeWhile (· ≠ '\x00') :=
      List.takeWhile_append_of_pos (by simpa [NulFree] using h)
    simpa using this
  rw [beforeNul, this, String.ofList_toList]

theorem nulFree_beforeNul (s : String) : NulFree (beforeNul s) := by
  have h := List.all_takeWhile (p := (· ≠ '\x00')) (l := s.toList)
  intro c hc
  rw [beforeNul, String.toList_ofList] at hc
  simpa using List.all_eq_true.1 h c hc

theorem beforeNul_beforeNul (s : String) : beforeNul (beforeNul s) = beforeNul s :=
  beforeNul_eq_self (nulFree_beforeNul s)

end Text
end DurableTopic

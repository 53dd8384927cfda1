import DurableTopic.Integer
import Mathlib.Data.List.TakeWhile
/-! Which texts are integers, and what becomes of each of them as an argument: it is read exactly, or
it lies outside of the bounds, or it is no integer at all. -/
namespace DurableTopic.Integer

/-- One or more decimal digits, behind a minus sign or not, and the number that they stand for. -/
inductive Numeral : List Char → Int → Prop where
  | plain {ds : List Char} (hne : ds ≠ []) (hd : ∀ c ∈ ds, c.isDigit) :
    Numeral ds (Nat.ofDigitChars 10 ds 0)
  | minus {ds : List Char} (hne : ds ≠ []) (hd : ∀ c ∈ ds, c.isDigit) :
    Numeral ('-' :: ds) (-(Nat.ofDigitChars 10 ds 0))

variable {cs ds rest : List Char} {v : Int} {n : Int64} {negative : Bool} {text what : String}
  {least greatest : Int}

theorem sign_digits (hne : ds ≠ []) (hd : ∀ c ∈ ds, c.isDigit) : sign ds = (false, ds) := by
  unfold sign
  split
  · exact absurd (hd '-' List.mem_cons_self) (by decide)
  · rfl

/-- Digits and nothing else are read as what they stand for, if a word holds it. -/
theorem front_digits (hs : sign cs = (negative, ds)) (hne : ds ≠ []) (hd : ∀ c ∈ ds, c.isDigit)
    (hv : value negative ds = v) :
    front cs = if (Int64.ofInt v).toInt = v then .word (Int64.ofInt v) [] else .beyond [] := by
  have ht : ds.takeWhile Char.isDigit = ds := List.takeWhile_eq_self_iff.2 hd
  have hr : ds.dropWhile Char.isDigit = [] := List.dropWhile_eq_nil_iff.2 hd
  simp only [front, hs, ht, hr, hv, List.isEmpty_iff, hne, if_false]

theorem front_numeral (h : Numeral cs v) :
    front cs = if (Int64.ofInt v).toInt = v then .word (Int64.ofInt v) [] else .beyond [] := by
  cases h with
  | plain hne hd => exact front_digits (sign_digits hne hd) hne hd rfl
  | @minus ds hne hd =>
    have hs : sign ('-' :: ds) = (true, ds) := rfl
    exact front_digits hs hne hd rfl

/-- What is read at the front of a text is a numeral. -/
theorem numeral_of_front (h : front cs = .word n rest ∨ front cs = .beyond rest) :
    ∃ ds v, cs = ds ++ rest ∧ Numeral ds v := by
  rcases hs : sign cs with ⟨negative, body⟩
  have hne : body.takeWhile Char.isDigit ≠ [] := by
    intro he
    simp [front, hs, he] at h
  have hd : ∀ c ∈ body.takeWhile Char.isDigit, c.isDigit := fun c hc => List.mem_takeWhile_imp hc
  have hr : body.dropWhile Char.isDigit = rest := by
    simp only [front, hs, List.isEmpty_iff, hne, if_false] at h
    split at h <;> rcases h with h | h <;> cases h <;> rfl
  have hbody : body = body.takeWhile Char.isDigit ++ rest := by
    rw [← hr, List.takeWhile_append_dropWhile]
  unfold sign at hs
  split at hs <;> cases hs
  · refine ⟨_, _, ?_, .minus hne hd⟩
    rw [List.cons_append, ← hbody]
  · exact ⟨_, _, hbody, .plain hne hd⟩

/-- A text that is no numeral is no integer, whatever is read at its front. -/
theorem readWithin_other (h : ∀ v, ¬Numeral text.toList v) :
    readWithin text least greatest = .error .notInteger := by
  have hend : ∀ n, front text.toList ≠ .word n [] ∧ front text.toList ≠ .beyond [] := by
    intro n
    refine not_or.1 fun hf => ?_
    obtain ⟨ds, v, hcs, hv⟩ := numeral_of_front hf
    rw [← List.append_nil ds, ← hcs] at hv
    exact h v hv
  unfold readWithin
  cases hf : front text.toList with
  | nothing => rfl
  | word n rest =>
    cases rest with
    | nil => exact absurd hf (hend n).1
    | cons c rest => rfl
  | beyond rest =>
    cases rest with
    | nil => exact absurd hf (hend 0).2
    | cons c rest => rfl

/-- A word holds every number between two that it holds. -/
theorem word_between {a b : Int64} (ha : a.toInt ≤ v) (hb : v ≤ b.toInt) :
    (Int64.ofInt v).toInt = v :=
  Int64.toInt_ofInt_of_le (Int.le_trans a.le_toInt ha) (Int.lt_of_le_of_lt hb b.toInt_lt)

/-- A numeral is read if it lies within the bounds. That a word does not hold it is no other case,
as a word holds both bounds. -/
theorem readWithin_numeral {a b : Int64} (h : Numeral text.toList v) :
    readWithin text a.toInt b.toInt =
      if a.toInt ≤ v ∧ v ≤ b.toInt then .ok v else .error (.outOfRange a.toInt b.toInt) := by
  unfold readWithin
  rw [front_numeral h]
  by_cases hw : (Int64.ofInt v).toInt = v
  · simp only [hw, if_true]
    split <;> split <;> first | rfl | omega
  · rw [if_neg hw, if_neg fun hb => hw (word_between hb.1 hb.2)]

theorem numeral_toString (v : Int) : Numeral (toString v).toList v := by
  have hnat : ∀ n : Nat, Nat.toDigits 10 n ≠ [] ∧ (∀ c ∈ Nat.toDigits 10 n, c.isDigit) ∧
      Nat.ofDigitChars 10 (Nat.toDigits 10 n) 0 = n := fun n =>
    ⟨Nat.toDigits_ne_nil, fun _ hc => Nat.isDigit_of_mem_toDigits (by decide) (by decide) hc,
      Nat.ofDigitChars_ten_toDigits⟩
  cases v with
  | ofNat n =>
    obtain ⟨hne, hd, hv⟩ := hnat n
    have h := Numeral.plain hne hd
    rwa [hv, ← Nat.toList_repr] at h
  | negSucc n =>
    obtain ⟨hne, hd, hv⟩ := hnat (n + 1)
    have h := Numeral.minus hne hd
    have ht : (toString (Int.negSucc n)).toList = '-' :: (n + 1).repr.toList :=
      String.toList_append (s := "-")
    rwa [hv, ← Nat.toList_repr, ← ht] at h

/-- The two refusals cannot be taken for each other, whatever the argument is called. -/
theorem message_ne :
    Issue.notInteger.message what text ≠ (Issue.outOfRange least greatest).message what text := by
  intro h
  have h := congrArg String.toList h
  simp only [Issue.message, String.toList_append, List.append_assoc] at h
  exact absurd (List.append_cancel_left h) (by simp)

theorem parse_other (h : ∀ v, ¬Numeral text.toList v) : parse text what least greatest =
    .error (.invalidArgument (Issue.notInteger.message what text)) := by
  rw [parse, readWithin_other h]
  rfl

theorem parse_numeral {a b : Int64} (h : Numeral text.toList v) :
    parse text what a.toInt b.toInt = if a.toInt ≤ v ∧ v ≤ b.toInt then .ok v
      else .error (.invalidArgument ((Issue.outOfRange a.toInt b.toInt).message what text)) := by
  rw [parse, readWithin_numeral h]
  split <;> rfl

theorem parse_eq_ok_iff {a b : Int64} : parse text what a.toInt b.toInt = .ok v ↔
    Numeral text.toList v ∧ a.toInt ≤ v ∧ v ≤ b.toInt := by
  constructor
  · intro h
    by_cases hex : ∃ w, Numeral text.toList w
    · obtain ⟨w, hw⟩ := hex
      rw [parse_numeral hw] at h
      split at h
      · cases h
        exact ⟨hw, ‹_›⟩
      · cases h
    · rw [parse_other (not_exists.1 hex)] at h
      cases h
  · rintro ⟨hv, hb⟩
    rw [parse_numeral hv, if_pos hb]

/-- To narrow an argument that is within its bounds changes nothing, if they are within the narrower
word. -/
theorem parse_map_eq_ok_iff {a b : Int64} {narrow : Int → Int}
    (hn : ∀ v, a.toInt ≤ v → v ≤ b.toInt → narrow v = v) :
    (parse text what a.toInt b.toInt).map narrow = .ok v ↔
      Numeral text.toList v ∧ a.toInt ≤ v ∧ v ≤ b.toInt := by
  rw [← @parse_eq_ok_iff v text what]
  cases h : parse text what a.toInt b.toInt with
  | error f => exact ⟨nofun, nofun⟩
  | ok w =>
    obtain ⟨-, ha, hb⟩ := parse_eq_ok_iff.1 h
    simp only [Except.map, hn w ha hb]

theorem parsePriority_eq_ok_iff :
    parsePriority text = .ok v ↔ Numeral text.toList v ∧ 0 ≤ v ∧ v ≤ 9 :=
  parse_map_eq_ok_iff (a := 0) (b := 9) fun v ha hb =>
    Int32.toInt_ofInt_of_le (Int.le_trans (by decide) ha) (Int.lt_of_le_of_lt hb (by decide))

theorem parseBatchSize_eq_ok_iff :
    parseBatchSize text = .ok v ↔ Numeral text.toList v ∧ 1 ≤ v ∧ v ≤ 0x7fffffff :=
  parse_map_eq_ok_iff (a := 1) (b := 0x7fffffff) fun v ha hb => by
    have ha : 1 ≤ v := ha
    have hb : v ≤ 0x7fffffff := hb
    rw [UInt64.ofInt, UInt64.toNat_ofNat']
    omega

/-- Every argument is read exactly, or refused for the one reason that there is. -/
theorem integers_read_exactly (text what : String) (a b : Int64) :
    (∀ v, parse text what a.toInt b.toInt = .ok v ↔
      Numeral text.toList v ∧ a.toInt ≤ v ∧ v ≤ b.toInt) ∧
    (parse text what a.toInt b.toInt =
        .error (.invalidArgument (what ++ " is not an integer: '" ++ text ++ "'")) ↔
      ∀ v, ¬Numeral text.toList v) ∧
    (parse text what a.toInt b.toInt = .error (.invalidArgument (what ++ " out of range [" ++
        toString a.toInt ++ ", " ++ toString b.toInt ++ "]: " ++ text)) ↔
      ∃ v, Numeral text.toList v ∧ ¬(a.toInt ≤ v ∧ v ≤ b.toInt)) ∧
    (∀ v : Int, parse (toString v) what a.toInt b.toInt = .ok v ↔ a.toInt ≤ v ∧ v ≤ b.toInt) ∧
    (∀ n, parsePriority text = .ok n ↔ Numeral text.toList n ∧ 0 ≤ n ∧ n ≤ 9) ∧
    (∀ n, parseBatchSize text = .ok n ↔ Numeral text.toList n ∧ 1 ≤ n ∧ n ≤ 0x7fffffff) := by
  refine ⟨fun v => parse_eq_ok_iff, ?_, ?_, fun v => ?_, fun n => parsePriority_eq_ok_iff,
    fun n => parseBatchSize_eq_ok_iff⟩
  · constructor
    · intro h v hv
      rw [parse_numeral hv] at h
      split at h
      · cases h
      · exact message_ne (Failure.invalidArgument.inj (Except.error.inj h)).symm
    · exact parse_other
  · constructor
    · intro h
      by_cases hex : ∃ v, Numeral text.toList v
      · obtain ⟨v, hv⟩ := hex
        refine ⟨v, hv, fun hb => ?_⟩
        rw [parse_numeral hv, if_pos hb] at h
        cases h
      · rw [parse_other (not_exists.1 hex)] at h
        exact absurd (Failure.invalidArgument.inj (Except.error.inj h)) message_ne
    · rintro ⟨v, hv, hb⟩
      rw [parse_numeral hv, if_neg hb]
      rfl
  · rw [parse_eq_ok_iff]
    exact and_iff_right (numeral_toString v)

/-- What follows too many digits is looked at before their number. -/
example : parse "99999999999999999999x" "n" 0 9 =
    .error (.invalidArgument "n is not an integer: '99999999999999999999x'") := by decide +kernel

end DurableTopic.Integer

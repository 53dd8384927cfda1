import DurableTopic.Number.Literal
import Mathlib.Data.List.TakeWhile
/-! Which texts are numbers. The reader takes as much as it can from the front of a text, part by part,
and never goes back; for all that, the texts that it reads to their end are those that a grammar
describes. -/
namespace DurableTopic.Number.Literal

def Decimal (c : Char) : Prop := '0' ≤ c ∧ c ≤ '9'

def Hexadecimal (c : Char) : Prop := Decimal c ∨ ('a' ≤ c ∧ c ≤ 'f') ∨ ('A' ≤ c ∧ c ≤ 'F')

instance : DecidablePred Decimal := fun _ => inferInstanceAs (Decidable (_ ∧ _))

instance : DecidablePred Hexadecimal := fun _ => inferInstanceAs (Decidable (_ ∨ _))

/-- A sign, or none. -/
inductive Sign : List Char → Prop where
  | none : Sign []
  | plus : Sign ['+']
  | minus : Sign ['-']

/-- At least one digit, and at most one point. -/
inductive Mantissa (digit : Char → Prop) : List Char → Prop where
  | whole {ds : List Char} (hne : ds ≠ []) (hd : ∀ c ∈ ds, digit c) : Mantissa digit ds
  | point {ds fs : List Char} (hne : ds ++ fs ≠ []) (hd : ∀ c ∈ ds, digit c)
    (hf : ∀ c ∈ fs, digit c) : Mantissa digit (ds ++ '.' :: fs)

/-- An exponent, which is in base ten whatever the mantissa is in, or none. -/
inductive Exponent (letter : Char) : List Char → Prop where
  | none : Exponent letter []
  | some {c : Char} {s ds : List Char} (hc : c.toLower = letter) (hs : Sign s) (hne : ds ≠ [])
    (hd : ∀ c ∈ ds, Decimal c) : Exponent letter (c :: (s ++ ds))

/-- What may follow the word for no number. -/
inductive Payload : List Char → Prop where
  | none : Payload []
  | some {cs : List Char} (h : ∀ c ∈ cs, c.isAlphanum || c = '_') : Payload ('(' :: (cs ++ [')']))

/-- A number without its sign. -/
inductive Magnitude : List Char → Prop where
  | decimal {m e : List Char} (hm : Mantissa Decimal m) (he : Exponent 'e' e) : Magnitude (m ++ e)
  | hexadecimal {x : Char} {m e : List Char} (hx : x.toLower = 'x') (hm : Mantissa Hexadecimal m)
    (he : Exponent 'p' e) : Magnitude ('0' :: x :: (m ++ e))
  | infinity {w : List Char} (h : w.map Char.toLower = "infinity".toList) : Magnitude w
  | inf {w : List Char} (h : w.map Char.toLower = "inf".toList) : Magnitude w
  | nan {w p : List Char} (h : w.map Char.toLower = "nan".toList) (hp : Payload p) :
    Magnitude (w ++ p)

/-- Blanks, a sign and a number. -/
inductive Numeric : List Char → Prop where
  | mk {blanks s m : List Char} (hb : ∀ c ∈ blanks, isBlank c) (hs : Sign s) (hm : Magnitude m) :
    Numeric (blanks ++ (s ++ m))

variable {base : Nat} {c letter : Char} {cs ds rest ws : List Char} {negative : Bool}

theorem between_iff {a b : Char} : a ≤ c ∧ c ≤ b ↔ a.toNat ≤ c.toNat ∧ c.toNat ≤ b.toNat := Iff.rfl

theorem digit?_sixteen : (digit? 16 c).isSome ↔ Hexadecimal c := by
  simp only [digit?, hexDigit?, Hexadecimal, Decimal, between_iff, Char.reduceToNat]
  split
  · simp [Option.filter]; omega
  · split
    · simp [Option.filter]; omega
    · split
      · simp [Option.filter]; omega
      · simp; omega

theorem digit?_ten : (digit? 10 c).isSome ↔ Decimal c := by
  simp only [digit?, hexDigit?, Decimal, between_iff, Char.reduceToNat]
  split
  · simp [Option.filter]; omega
  · split
    · simp [Option.filter]; omega
    · split
      · simp [Option.filter]; omega
      · simp; omega

/-- Digits are read up to the first character that is none. -/
theorem digits_append (hd : ∀ c ∈ ds, (digit? base c).isSome)
    (hr : ∀ c ∈ rest.head?, digit? base c = none) :
    (digits base (ds ++ rest)).2 = rest ∧ ((digits base (ds ++ rest)).1 = [] ↔ ds = []) := by
  induction ds with
  | nil =>
    cases rest with
    | nil => exact ⟨rfl, iff_of_true rfl rfl⟩
    | cons c rest => simp [digits, hr c rfl]
  | cons d ds ih =>
    obtain ⟨n, hn⟩ := Option.isSome_iff_exists.1 (hd d List.mem_cons_self)
    have hrest := (ih fun c hc => hd c (List.mem_cons_of_mem d hc)).1
    simp [digits, hn, hrest]

/-- What is read as digits is digits. -/
theorem digits_split (base : Nat) (cs : List Char) : ∃ ds, cs = ds ++ (digits base cs).2 ∧
    (∀ c ∈ ds, (digit? base c).isSome) ∧ ((digits base cs).1 = [] ↔ ds = []) := by
  induction cs with
  | nil => exact ⟨[], rfl, by simp, iff_of_true rfl rfl⟩
  | cons c cs ih =>
    obtain ⟨ds, hcs, hd, -⟩ := ih
    cases hc : digit? base c with
    | none => exact ⟨[], by simp [digits, hc], by simp, by simp [digits, hc]⟩
    | some n =>
      refine ⟨c :: ds, ?_, ?_, by simp [digits, hc]⟩
      · simp only [digits, hc, List.cons_append]
        rw [← hcs]
      · simpa [hc] using hd

/-- A word is read from a text that starts with it, in any case. -/
theorem afterWord?_eq_some :
    afterWord? ws cs = some rest ↔ ∃ w, w.map Char.toLower = ws ∧ cs = w ++ rest := by
  induction ws generalizing cs with
  | nil => simp [afterWord?, eq_comm]
  | cons w ws ih =>
    cases cs with
    | nil =>
      refine iff_of_false (by simp [afterWord?]) ?_
      rintro ⟨v, hv, hcs⟩
      rw [(List.append_eq_nil_iff.1 hcs.symm).1] at hv
      cases hv
    | cons c cs =>
      rw [afterWord?]
      constructor
      · intro h
        split at h
        · rename_i hc
          obtain ⟨v, rfl, rfl⟩ := ih.1 h
          exact ⟨c :: v, by simp [hc], rfl⟩
        · cases h
      · rintro ⟨v, hv, hcs⟩
        cases v with
        | nil => cases hv
        | cons a v =>
          simp only [List.map_cons, List.cons.injEq] at hv
          obtain ⟨rfl, rfl⟩ := List.cons.inj hcs
          rw [if_pos hv.1]
          exact ih.2 ⟨v, hv.2, rfl⟩

theorem mantissa?_whole (h : (digits base cs).2.head? ≠ some '.') : mantissa? base cs =
    if (digits base cs).1 = [] then none
    else some (ofDigits base ((digits base cs).1 ++ []), 0, (digits base cs).2) := by
  unfold mantissa?
  generalize digits base cs = x at h
  obtain ⟨whole, behind⟩ := x
  dsimp only at h ⊢
  split
  · exact absurd rfl h
  · simp

theorem mantissa?_point (h : (digits base cs).2 = '.' :: rest) : mantissa? base cs =
    if (digits base cs).1 = [] ∧ (digits base rest).1 = [] then none
    else some (ofDigits base ((digits base cs).1 ++ (digits base rest).1),
      (digits base rest).1.length, (digits base rest).2) := by
  unfold mantissa?
  simp [h]

/-- A mantissa is read up to the first character that is neither a digit nor a point. -/
theorem mantissa?_append {m : List Char} (hm : Mantissa (fun c => (digit? base c).isSome) m)
    (hp : digit? base '.' = none) (hr : ∀ c ∈ rest.head?, digit? base c = none ∧ c ≠ '.') :
    ∃ n places, mantissa? base (m ++ rest) = some (n, places, rest) := by
  cases hm with
  | whole hne hd =>
    obtain ⟨hrest, hnil⟩ := digits_append hd fun c hc => (hr c hc).1
    rw [mantissa?_whole (hrest.symm ▸ fun h => (hr '.' h).2 rfl), if_neg (hnil.not.2 hne), hrest]
    exact ⟨_, _, rfl⟩
  | @point ds fs hne hd hf =>
    have hdot : ∀ c ∈ ('.' :: (fs ++ rest)).head?, digit? base c = none := by simpa using hp
    obtain ⟨hpoint, hnil⟩ := digits_append hd hdot
    obtain ⟨hrest, hnil'⟩ := digits_append hf fun c hc => (hr c hc).1
    rw [List.append_assoc, List.cons_append, mantissa?_point hpoint, hrest, if_neg]
    · exact ⟨_, _, rfl⟩
    · rintro ⟨h, h'⟩
      exact hne (by rw [hnil.1 h, hnil'.1 h', List.nil_append])

/-- What is read as a mantissa is one. -/
theorem mantissa?_split {n places : Nat} (h : mantissa? base cs = some (n, places, rest)) :
    ∃ m, cs = m ++ rest ∧ Mantissa (fun c => (digit? base c).isSome) m := by
  obtain ⟨ds, hcs, hd, hnil⟩ := digits_split base cs
  by_cases hpoint : (digits base cs).2.head? = some '.'
  · obtain ⟨behind, hbehind⟩ := List.head?_eq_some_iff.1 hpoint
    obtain ⟨fs, hfs, hf, hnil'⟩ := digits_split base behind
    rw [mantissa?_point hbehind] at h
    split at h
    · cases h
    · rename_i hne
      cases h
      refine ⟨ds ++ '.' :: fs, ?_, .point (fun he => hne ?_) hd hf⟩
      · rw [List.append_assoc, List.cons_append, ← hfs, ← hbehind, ← hcs]
      · rw [hnil, hnil']
        exact List.append_eq_nil_iff.1 he
  · rw [mantissa?_whole hpoint] at h
    split at h
    · cases h
    · rename_i hne
      cases h
      exact ⟨ds, hcs, .whole (hnil.not.1 hne) hd⟩

theorem sign_append {s : List Char} (hs : Sign s) (hr : ∀ c ∈ rest.head?, c ≠ '-' ∧ c ≠ '+') :
    (sign (s ++ rest)).2 = rest := by
  cases hs with
  | plus => rfl
  | minus => rfl
  | none =>
    rw [List.nil_append]
    unfold sign
    split
    · exact absurd rfl (hr '-' rfl).1
    · exact absurd rfl (hr '+' rfl).2
    · rfl

theorem sign_split (cs : List Char) : ∃ s, Sign s ∧ cs = s ++ (sign cs).2 := by
  unfold sign
  split
  · exact ⟨_, .minus, rfl⟩
  · exact ⟨_, .plus, rfl⟩
  · exact ⟨_, .none, rfl⟩

theorem digits_all (hd : ∀ c ∈ ds, Decimal c) :
    (digits 10 ds).2 = [] ∧ ((digits 10 ds).1 = [] ↔ ds = []) := by
  have hend : ∀ c ∈ ([] : List Char).head?, digit? 10 c = none := nofun
  simpa using digits_append (fun c hc => digit?_ten.2 (hd c hc)) hend

theorem exponent_cons {c : Char} (hc : c.toLower = letter) : exponent letter (c :: cs) =
    if (digits 10 (sign cs).2).1 = [] then (0, c :: cs)
    else (if (sign cs).1 then -(ofDigits 10 (digits 10 (sign cs).2).1 : Int)
      else ofDigits 10 (digits 10 (sign cs).2).1, (digits 10 (sign cs).2).2) := by
  unfold exponent
  rcases h : digits 10 (sign cs).2 with ⟨_ | ⟨d, ds⟩, rest⟩ <;> simp [hc, h]

/-- An exponent is read to the end of a text if it is nothing but one. -/
theorem exponent_nil : (exponent letter cs).2 = [] ↔ Exponent letter cs := by
  constructor
  · intro h
    cases cs with
    | nil => exact .none
    | cons c cs =>
      by_cases hc : c.toLower = letter
      · rw [exponent_cons hc] at h
        split at h
        · cases h
        · rename_i hne
          obtain ⟨s, hs, hcs⟩ := sign_split cs
          obtain ⟨ds, hds, hd, hnil⟩ := digits_split 10 (sign cs).2
          rw [h, List.append_nil] at hds
          rw [hcs, hds]
          exact .some hc hs (hnil.not.1 hne) fun c hc => digit?_ten.1 (hd c hc)
      · simp [exponent, hc] at h
  · intro h
    cases h with
    | none => rfl
    | @some c s ds hc hs hne hd =>
      have hsign : (sign (s ++ ds)).2 = ds := sign_append hs fun c h => by
        have hc := hd c (List.mem_of_mem_head? h)
        exact ⟨fun he => absurd (he ▸ hc) (by decide), fun he => absurd (he ▸ hc) (by decide)⟩
      obtain ⟨hrest, hnil⟩ := digits_all hd
      rw [exponent_cons hc, hsign, if_neg (hnil.not.2 hne), hrest]

theorem payload_nil : payload cs = [] ↔ Payload cs := by
  constructor
  · intro h
    unfold payload at h
    split at h
    · rename_i r
      split at h
      · rename_i rest hrest
        subst h
        rw [← List.takeWhile_append_dropWhile (p := fun c => c.isAlphanum || c = '_') (l := r),
          hrest]
        exact .some fun c hc => by simpa using List.mem_takeWhile_imp hc
      · cases h
    · exact h ▸ .none
  · intro h
    cases h with
    | none => rfl
    | some hc =>
      simp only [payload]
      rw [List.dropWhile_append_of_pos (by simpa using hc)]
      rfl

theorem afterWord?_none (h : ¬ws <+: cs.map Char.toLower) : afterWord? ws cs = none := by
  rw [Option.eq_none_iff_forall_ne_some]
  intro rest hrest
  obtain ⟨w, rfl, rfl⟩ := afterWord?_eq_some.1 hrest
  exact h (List.map_append ▸ List.prefix_append _ _)

theorem afterWord?_whole (h : cs.map Char.toLower = ws) : afterWord? ws cs = some [] :=
  afterWord?_eq_some.2 ⟨cs, h, (List.append_nil cs).symm⟩

/-- Only the capital letters change. -/
theorem toLower_cases (c : Char) :
    c.toLower = c ∨ 65 ≤ c.toNat ∧ c.toNat ≤ 90 ∧ c.toLower.toNat = c.toNat + 32 := by
  unfold Char.toLower
  split
  · rename_i h
    have hA : 65 ≤ c.toNat := h.1
    have hZ : c.toNat ≤ 90 := h.2
    refine .inr ⟨hA, hZ, ?_⟩
    show (c.val + ('a'.val - 'A'.val)).toNat = _
    rw [UInt32.toNat_add]
    show (c.toNat + 32) % 4294967296 = _
    omega
  · exact .inl rfl

theorem toLower_eq {c l : Char} (h : c.toLower = l) : c = l ∨ c.toNat + 32 = l.toNat := by
  rcases toLower_cases c with hc | ⟨-, -, hl⟩
  · exact .inl (hc.symm.trans h)
  · exact .inr (hl.symm.trans (congrArg Char.toNat h))

theorem toLower_decimal {c : Char} (h : Decimal c) : c.toLower = c := by
  rcases toLower_cases c with hc | ⟨hA, -, -⟩
  · exact hc
  · have h9 : c.toNat ≤ 57 := h.2
    omega

theorem decimal_of_toLower {c : Char} (h : Decimal c.toLower) : c.toLower = c := by
  rcases toLower_cases c with hc | ⟨hA, -, hl⟩
  · exact hc
  · have h9 : c.toLower.toNat ≤ 57 := h.2
    omega

theorem word_hexadecimal {w : List Char} (h : w.map Char.toLower = "0x".toList) :
    ∃ x, w = ['0', x] ∧ x.toLower = 'x' := by
  obtain ⟨z, v, rfl, hz, hv⟩ := List.map_eq_cons_iff.1 h
  obtain ⟨x, v, rfl, hx, hv⟩ := List.map_eq_cons_iff.1 hv
  obtain rfl := List.map_eq_nil_iff.1 hv
  obtain rfl : z = '0' := (decimal_of_toLower (hz ▸ by decide)).symm.trans hz
  exact ⟨x, rfl, hx⟩

theorem digit?_ten_eq : (fun c => ((digit? 10 c).isSome : Prop)) = Decimal :=
  funext fun _ => propext digit?_ten

theorem digit?_sixteen_eq : (fun c => ((digit? 16 c).isSome : Prop)) = Hexadecimal :=
  funext fun _ => propext digit?_sixteen

/-- A text that starts with none of the words is a number in base sixteen or ten. -/
theorem unsigned?_digits (h : ∀ c ∈ cs.head?, c.toLower ≠ 'i' ∧ c.toLower ≠ 'n') :
    unsigned? negative cs = match (afterWord? "0x".toList cs).bind (mantissa? 16) with
      | some (m, places, rest) =>
        some (power negative m 2 ((exponent 'p' rest).1 - 4 * places), (exponent 'p' rest).2)
      | none => (mantissa? 10 cs).map fun (m, places, rest) =>
        (power negative m 10 ((exponent 'e' rest).1 - places), (exponent 'e' rest).2) := by
  cases cs with
  | nil => rfl
  | cons c cs =>
    obtain ⟨hi, hn⟩ := h c rfl
    have hinfinity : afterWord? "infinity".toList (c :: cs) = none := if_neg hi
    have hinf : afterWord? "inf".toList (c :: cs) = none := if_neg hi
    have hnan : afterWord? "nan".toList (c :: cs) = none := if_neg hn
    unfold unsigned?
    rewrite [hinfinity, hinf, hnan]
    cases (afterWord? "0x".toList (c :: cs)).bind (mantissa? 16) with
    | none => rfl
    | some x => rfl

/-- What is read to its end is what the grammar describes. -/
theorem magnitude_of_read {x : Binary64} (h : unsigned? negative cs = some (x, [])) :
    Magnitude cs := by
  unfold unsigned? at h
  cases hinfinity : afterWord? "infinity".toList cs with
  | some rest =>
    obtain ⟨w, hw, rfl⟩ := afterWord?_eq_some.1 hinfinity
    rw [hinfinity] at h
    cases h
    exact (List.append_nil w).symm ▸ .infinity hw
  | none =>
    cases hinf : afterWord? "inf".toList cs with
    | some rest =>
      obtain ⟨w, hw, rfl⟩ := afterWord?_eq_some.1 hinf
      rw [hinfinity, hinf] at h
      cases h
      exact (List.append_nil w).symm ▸ .inf hw
    | none =>
      cases hnan : afterWord? "nan".toList cs with
      | some rest =>
        obtain ⟨w, hw, rfl⟩ := afterWord?_eq_some.1 hnan
        rw [hinfinity, hinf, hnan] at h
        exact .nan hw (payload_nil.1 (congrArg Prod.snd (Option.some.inj h)))
      | none =>
        rw [hinfinity, hinf, hnan] at h
        dsimp only at h
        cases hbind : (afterWord? "0x".toList cs).bind (mantissa? 16) with
        | some y =>
          obtain ⟨m, places, rest⟩ := y
          rw [hbind] at h
          obtain ⟨behind, hw, hm⟩ := Option.bind_eq_some_iff.1 hbind
          obtain ⟨w, hword, rfl⟩ := afterWord?_eq_some.1 hw
          obtain ⟨ms, rfl, hms⟩ := mantissa?_split hm
          have he := exponent_nil.1 (congrArg Prod.snd (Option.some.inj h))
          obtain ⟨x, rfl, hx⟩ := word_hexadecimal hword
          show Magnitude ('0' :: x :: (ms ++ rest))
          exact .hexadecimal hx (digit?_sixteen_eq ▸ hms) he
        | none =>
          rw [hbind] at h
          obtain ⟨⟨m, places, rest⟩, hm, he⟩ := Option.map_eq_some_iff.1 h
          obtain ⟨ms, rfl, hms⟩ := mantissa?_split hm
          exact .decimal (digit?_ten_eq ▸ hms) (exponent_nil.1 (congrArg Prod.snd he))

/-- Nothing in a decimal mantissa starts or goes on as a word. -/
theorem toLower_front {c : Char} (h : Decimal c ∨ c = '.') :
    c.toLower ≠ 'i' ∧ c.toLower ≠ 'n' ∧ c.toLower ≠ 'x' := by
  rcases h with h | rfl
  · rw [toLower_decimal h]
    refine ⟨?_, ?_, ?_⟩ <;> rintro rfl <;> exact absurd h (by decide)
  · decide

theorem mem_mantissa {digit : Char → Prop} {m : List Char} (h : Mantissa digit m) (hc : c ∈ m) :
    digit c ∨ c = '.' := by
  cases h with
  | whole hne hd => exact .inl (hd c hc)
  | point hne hd hf =>
    rcases List.mem_append.1 hc with hc | hc
    · exact .inl (hd c hc)
    · rcases List.mem_cons.1 hc with rfl | hc
      · exact .inr rfl
      · exact .inl (hf c hc)

theorem mantissa_ne {digit : Char → Prop} {m : List Char} (h : Mantissa digit m) : m ≠ [] := by
  cases h with
  | whole hne hd => exact hne
  | point hne hd hf => simp

theorem mem_exponent {e : List Char} (h : Exponent letter e) (hc : c ∈ e) :
    c.toLower = letter ∨ c = '+' ∨ c = '-' ∨ Decimal c := by
  cases h with
  | none => cases hc
  | some hl hs hne hd =>
    rcases List.mem_cons.1 hc with rfl | hc
    · exact .inl hl
    · rcases List.mem_append.1 hc with hc | hc
      · cases hs with
        | none => cases hc
        | plus => exact .inr (.inl (List.mem_singleton.1 hc))
        | minus => exact .inr (.inr (.inl (List.mem_singleton.1 hc)))
      · exact .inr (.inr (.inr (hd c hc)))

theorem exponent_front {e : List Char} (h : Exponent letter e) (hc : c ∈ e.head?) :
    c.toLower = letter := by
  cases h with
  | none => cases hc
  | some hl =>
    obtain rfl := Option.some.inj hc
    exact hl

-- The letter of an exponent ends the mantissa: `p` is no digit in base sixteen, and `e` none in base ten.
theorem no_digit_p (h : c.toLower = 'p') : digit? 16 c = none ∧ c ≠ '.' := by
  refine ⟨Option.not_isSome_iff_eq_none.1 fun hd => ?_, fun he => ?_⟩
  · have hd := digit?_sixteen.1 hd
    rcases toLower_eq h with rfl | h
    · exact absurd hd (by decide)
    · simp only [Hexadecimal, Decimal, between_iff, Char.reduceToNat] at hd h
      omega
  · exact absurd (he ▸ h) (by decide)

theorem no_digit_e (h : c.toLower = 'e') : digit? 10 c = none ∧ c ≠ '.' := by
  refine ⟨Option.not_isSome_iff_eq_none.1 fun hd => ?_, fun he => ?_⟩
  · rw [toLower_decimal (digit?_ten.1 hd)] at h
    exact absurd (h ▸ digit?_ten.1 hd) (by decide)
  · exact absurd (he ▸ h) (by decide)

/-- A decimal number that starts with a zero does not go on as a hexadecimal one. -/
theorem no_x {m e : List Char} (hm : Mantissa Decimal m) (he : Exponent 'e' e) :
    'x' ∉ (m ++ e).map Char.toLower := by
  intro hx
  obtain ⟨c, hc, hx⟩ := List.mem_map.1 hx
  rcases List.mem_append.1 hc with hc | hc
  · exact (toLower_front (mem_mantissa hm hc)).2.2 hx
  · rcases mem_exponent he hc with h | rfl | rfl | h
    · exact absurd (h.symm.trans hx) (by decide)
    · exact absurd hx (by decide)
    · exact absurd hx (by decide)
    · exact (toLower_front (.inl h)).2.2 hx

/-- What the grammar describes is read to its end. Each kind of number is passed over by the attempts to
read the kinds that are tried before it. -/
theorem read_of_magnitude (negative : Bool) (h : Magnitude cs) :
    ∃ x, unsigned? negative cs = some (x, []) := by
  cases h with
  | infinity h =>
    refine ⟨.infinity negative, ?_⟩
    unfold unsigned?
    rw [afterWord?_whole h]
  | inf h =>
    refine ⟨.infinity negative, ?_⟩
    unfold unsigned?
    rw [afterWord?_none (h ▸ by decide), afterWord?_whole h]
  | @nan w p h hp =>
    have hw : (w ++ p).map Char.toLower = "nan".toList ++ p.map Char.toLower := by
      rw [List.map_append, h]
    refine ⟨.nan negative, ?_⟩
    unfold unsigned?
    rw [afterWord?_none (hw ▸ by simp), afterWord?_none (hw ▸ by simp),
      afterWord?_eq_some.2 ⟨w, h, rfl⟩]
    exact congrArg (fun rest => some (_, rest)) (payload_nil.2 hp)
  | @hexadecimal x m e hx hm he =>
    have hp : ∀ c ∈ e.head?, digit? 16 c = none ∧ c ≠ '.' := fun c hc =>
      no_digit_p (exponent_front he hc)
    obtain ⟨n, places, hread⟩ := mantissa?_append (digit?_sixteen_eq ▸ hm) (by decide) hp
    have hword : afterWord? "0x".toList ('0' :: x :: (m ++ e)) = some (m ++ e) :=
      afterWord?_eq_some.2 ⟨['0', x], by simp [hx], rfl⟩
    rw [unsigned?_digits (by simp), hword, Option.bind_some, hread]
    exact ⟨_, congrArg (fun rest => some (_, rest)) (exponent_nil.2 he)⟩
  | @decimal m e hm he =>
    have he' : ∀ c ∈ e.head?, digit? 10 c = none ∧ c ≠ '.' := fun c hc =>
      no_digit_e (exponent_front he hc)
    obtain ⟨n, places, hread⟩ := mantissa?_append (digit?_ten_eq ▸ hm) (by decide) he'
    have hword : afterWord? "0x".toList (m ++ e) = none :=
      afterWord?_none fun hp => no_x hm he (hp.subset (by simp))
    have hfront : ∀ c ∈ (m ++ e).head?, c.toLower ≠ 'i' ∧ c.toLower ≠ 'n' := by
      intro c hc
      obtain ⟨a, m, rfl⟩ := List.exists_cons_of_ne_nil (mantissa_ne hm)
      obtain rfl := Option.some.inj hc
      obtain ⟨hi, hn, -⟩ := toLower_front (mem_mantissa hm List.mem_cons_self)
      exact ⟨hi, hn⟩
    rw [unsigned?_digits hfront, hword, Option.bind_none, hread]
    exact ⟨_, congrArg (fun rest => some (_, rest)) (exponent_nil.2 he)⟩

/-- No number starts with a blank or a sign. -/
theorem lead_front (h : isBlank c ∨ c = '-' ∨ c = '+') :
    ¬Decimal c ∧ c ≠ '.' ∧ c.toLower ≠ 'i' ∧ c.toLower ≠ 'n' := by
  simp only [isBlank, Bool.or_eq_true, decide_eq_true_eq] at h
  rcases h with (((((rfl | rfl) | rfl) | rfl) | rfl) | rfl) | rfl | rfl <;> decide

theorem magnitude_front (h : Magnitude cs) (hc : c ∈ cs.head?) :
    ¬(isBlank c ∨ c = '-' ∨ c = '+') := by
  intro hlead
  obtain ⟨hd, hp, hi, hn⟩ := lead_front hlead
  have hword : ∀ {w ws p : List Char} {l : Char}, w.map Char.toLower = l :: ws →
      c ∈ (w ++ p).head? → c.toLower = l := by
    intro w ws p l hw hc
    obtain ⟨a, v, rfl, ha, -⟩ := List.map_eq_cons_iff.1 hw
    obtain rfl := Option.some.inj hc
    exact ha
  cases h with
  | infinity h => exact hi (hword (p := []) h (by simpa using hc))
  | inf h => exact hi (hword (p := []) h (by simpa using hc))
  | nan h hp => exact hn (hword h hc)
  | hexadecimal =>
    obtain rfl := Option.some.inj hc
    exact hd (by decide)
  | @decimal m e hm he =>
    obtain ⟨a, m, rfl⟩ := List.exists_cons_of_ne_nil (mantissa_ne hm)
    obtain rfl := Option.some.inj hc
    rcases mem_mantissa hm List.mem_cons_self with h | h
    · exact hd h
    · exact hp h

theorem lead_not_blank {s m : List Char} (hs : Sign s) (hm : Magnitude m) :
    (s ++ m).dropWhile isBlank = s ++ m := by
  have hfront : ∀ c ∈ (s ++ m).head?, isBlank c = false := by
    cases hs with
    | none => exact fun c hc => Bool.eq_false_iff.2 fun hb => magnitude_front hm hc (.inl hb)
    | plus | minus => simp; decide
  cases h : s ++ m with
  | nil => rfl
  | cons c cs => exact List.dropWhile_cons_of_neg (by simp [hfront c (by rw [h]; rfl)])

theorem numeric_iff : Numeric cs ↔ Magnitude (sign (cs.dropWhile isBlank)).2 := by
  constructor
  · rintro ⟨hb, hs, hm⟩
    rw [List.dropWhile_append_of_pos hb, lead_not_blank hs hm, sign_append hs fun c hc =>
      not_or.1 (not_or.1 (magnitude_front hm hc)).2]
    exact hm
  · intro hm
    obtain ⟨s, hs, hsign⟩ := sign_split (cs.dropWhile isBlank)
    rw [← List.takeWhile_append_dropWhile (p := isBlank) (l := cs), hsign]
    exact .mk (fun c hc => List.mem_takeWhile_imp hc) hs hm

/-- A text is a number exactly if it is empty or one that the grammar describes, as far as its first
NUL. -/
theorem read?_isSome {text : String} : (read? text).isSome ↔
    (Text.beforeNul text).toList = [] ∨ Numeric (Text.beforeNul text).toList := by
  unfold read?
  generalize (Text.beforeNul text).toList = cs
  cases cs with
  | nil => simp
  | cons c cs =>
    rw [numeric_iff]
    dsimp only
    generalize sign ((c :: cs).dropWhile isBlank) = x
    obtain ⟨negative, m⟩ := x
    dsimp only
    constructor
    · intro h
      split at h
      · rename_i hread
        exact .inr (magnitude_of_read hread)
      · cases h
    · intro h
      obtain ⟨x, hread⟩ := read_of_magnitude negative (h.resolve_left (by simp))
      rw [hread]
      rfl

end DurableTopic.Number.Literal

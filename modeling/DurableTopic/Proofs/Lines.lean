import DurableTopic.Log.Line
import Mathlib.Data.List.Basic
/-! Log lines are read back. A reader that knows the message of a line and the keys of its fields finds
every value in it, so that two lines with the same message and the same keys differ wherever a value
does. A text may as well be taken for its bytes, a character for each: nothing is asked of a character
but which of a few it is, if any. -/
namespace DurableTopic.Log

/-- A key that a reader can tell from its surroundings. -/
def Plain (key : String) : Prop := ∀ c ∈ key.toList, separates c = false

instance (key : String) : Decidable (Plain key) := List.decidableBAll _ key.toList

/-- The character that is written behind a backslash as this one. -/
def unescape (c : Char) : Char := if c = 'n' then '\n' else c

/-- Reads a value up to its closing quote. -/
def readQuoted : List Char → Option (List Char × List Char)
  | [] | ['\\'] => none
  | '"' :: rest => some ([], rest)
  | '\\' :: c :: rest => (readQuoted rest).map fun (v, rest) => (unescape c :: v, rest)
  | c :: rest => (readQuoted rest).map fun (v, rest) => (c :: v, rest)

/-- Reads a value in quotes, or else up to the next blank. -/
def readValue : List Char → Option (List Char × List Char)
  | '"' :: rest => readQuoted rest
  | cs => some (cs.takeWhile (· ≠ ' '), cs.dropWhile (· ≠ ' '))

/-- What stands before the value of a field. -/
def lead (key : String) : List Char := ' ' :: (key.toList ++ ['='])

/-- Reads the fields with some keys. One that is not there has no value. -/
def readFields : List String → List Char → Option (List Field)
  | [], cs => if cs.isEmpty then some [] else none
  | k :: ks, cs =>
    match (lead k).isPrefixOf? cs with
    | none => (readFields ks cs).map (⟨k, ""⟩ :: ·)
    | some rest => (readValue rest).bind fun (v, rest) =>
        (readFields ks rest).map (⟨k, String.ofList v⟩ :: ·)

/-- Reads a line with a known message and known keys. -/
def readLine (message : String) (keys : List String) (l : String) : Option (List Field) :=
  (message.toList.isPrefixOf? l.toList).bind (readFields keys)

variable {v rest : List Char} {f : Field} {fs gs : List Field} {k message : String} {c : Char}

theorem readQuoted_escape : readQuoted (escape c ++ rest) =
    (readQuoted rest).map fun (v, rest) => (c :: v, rest) := by
  by_cases hq : c = '"'
  · subst hq
    rfl
  by_cases hb : c = '\\'
  · subst hb
    rfl
  by_cases hn : c = '\n'
  · subst hn
    rfl
  have he : escape c = [c] := by simp [escape, hq, hb, hn]
  rw [he, List.singleton_append]
  simp [readQuoted, hb]

/-- What is written in quotes is read up to the closing one. -/
theorem readQuoted_quoted : readQuoted (v.flatMap escape ++ '"' :: rest) = some (v, rest) := by
  induction v with
  | nil => rfl
  | cons c v ih =>
    rw [List.flatMap_cons, List.append_assoc, readQuoted_escape, ih]
    rfl

/-- A text that ends, or goes on with a blank. -/
def Parted (rest : List Char) : Prop := ∀ c ∈ rest.head?, c = ' '

theorem parted_fields : Parted (fs.flatMap writeField) := by
  induction fs with
  | nil => nofun
  | cons f fs ih =>
    rw [List.flatMap_cons]
    unfold writeField
    split
    · exact ih
    · simp [Parted]

theorem readValue_bare (hne : v ≠ []) (hv : ∀ c ∈ v, separates c = false) (hr : Parted rest) :
    readValue (v ++ rest) = some (v, rest) := by
  obtain ⟨c, cs, rfl⟩ := List.exists_cons_of_ne_nil hne
  have hc : c ≠ '"' := by
    rintro rfl
    exact absurd (hv '"' List.mem_cons_self) (by decide)
  have hblank : ∀ x ∈ c :: cs, decide (x ≠ ' ') = true := by
    intro x hx
    have := hv x hx
    simp only [separates, Bool.or_eq_false_iff, decide_eq_false_iff_not] at this
    exact decide_eq_true this.1.1.1.1
  have htake : rest.takeWhile (fun x => decide (x ≠ ' ')) = [] := by
    cases rest with
    | nil => rfl
    | cons x xs => simp [hr x rfl]
  have hdrop : rest.dropWhile (fun x => decide (x ≠ ' ')) = rest := by
    cases rest with
    | nil => rfl
    | cons x xs => simp [hr x rfl]
  have hread : readValue (c :: cs ++ rest) = some ((c :: cs ++ rest).takeWhile (· ≠ ' '),
      (c :: cs ++ rest).dropWhile (· ≠ ' ')) := by
    rw [List.cons_append, readValue]
    exact fun _ he => hc (List.head_eq_of_cons_eq he)
  rw [hread, List.takeWhile_append_of_pos hblank, List.dropWhile_append_of_pos hblank, htake, hdrop,
    List.append_nil]

/-- A value that is not empty is read back, and what stands behind it is left. -/
theorem readValue_written (hne : v ≠ []) (hr : Parted rest) :
    readValue (writeValue v ++ rest) = some (v, rest) := by
  unfold writeValue
  split
  · rw [List.cons_append, List.append_assoc]
    exact readQuoted_quoted
  · rename_i hv
    exact readValue_bare hne (by simpa using hv) hr

theorem writeField_some (h : f.value ≠ "") :
    writeField f = lead f.key ++ writeValue f.value.toList := by
  simp [writeField, lead, h]

theorem writeField_none (h : f.value = "") : writeField f = [] := by simp [writeField, h]

/-- A text up to its first equals sign is known. -/
theorem eq_of_before {a b x y : List Char} (ha : '=' ∉ a) (hb : '=' ∉ b)
    (h : a ++ '=' :: x = b ++ '=' :: y) : a = b := by
  have htake : ∀ {l t : List Char}, '=' ∉ l → (l ++ '=' :: t).takeWhile (· ≠ '=') = l := by
    intro l t hl
    have hplain : ∀ c ∈ l, decide (c ≠ '=') = true := fun c hc =>
      decide_eq_true (ne_of_mem_of_not_mem hc hl)
    rw [List.takeWhile_append_of_pos hplain]
    simp
  rw [← htake ha (t := x), h, htake hb]

theorem Plain.no_equals (h : Plain k) : '=' ∉ k.toList := fun hc => absurd (h '=' hc) (by decide)

/-- No field is taken for one with another key. -/
theorem lead_absent (hk : Plain k) (hfs : ∀ f ∈ fs, Plain f.key ∧ f.key ≠ k) :
    (lead k).isPrefixOf? (fs.flatMap writeField) = none := by
  refine Option.eq_none_iff_forall_ne_some.2 fun rest hrest => ?_
  rw [List.isPrefixOf?_eq_some_iff_append_eq] at hrest
  induction fs with
  | nil => simp [lead] at hrest
  | cons f fs ih =>
    by_cases hv : f.value = ""
    · rw [List.flatMap_cons, writeField_none hv, List.nil_append] at hrest
      exact ih (fun g hg => hfs g (List.mem_cons_of_mem _ hg)) hrest
    · obtain ⟨hplain, hne⟩ := hfs f List.mem_cons_self
      rw [List.flatMap_cons, writeField_some hv] at hrest
      simp only [lead, List.cons_append, List.append_assoc, List.nil_append, List.cons.injEq,
        true_and] at hrest
      exact hne (String.toList_inj.1 (eq_of_before hk.no_equals hplain.no_equals hrest)).symm

/-- Fields are read back by their keys, also those that are left out. -/
theorem readFields_written (hd : (fs.map (·.key)).Nodup) (hk : ∀ f ∈ fs, Plain f.key) :
    readFields (fs.map (·.key)) (fs.flatMap writeField) = some fs := by
  induction fs with
  | nil => rfl
  | cons f fs ih =>
    obtain ⟨hf, hd⟩ := List.nodup_cons.1 hd
    have hrest := ih hd fun g hg => hk g (List.mem_cons_of_mem _ hg)
    rw [List.map_cons, List.flatMap_cons, readFields]
    by_cases hv : f.value = ""
    · have habsent : (lead f.key).isPrefixOf? (fs.flatMap writeField) = none :=
        lead_absent (hk f List.mem_cons_self) fun g hg => ⟨hk g (List.mem_cons_of_mem _ hg),
          ne_of_mem_of_not_mem (List.mem_map_of_mem hg) hf⟩
      rw [writeField_none hv, List.nil_append, habsent, hrest, ← hv]
      rfl
    · have hlead : (lead f.key).isPrefixOf? (writeField f ++ fs.flatMap writeField) =
          some (writeValue f.value.toList ++ fs.flatMap writeField) := by
        rw [List.isPrefixOf?_eq_some_iff_append_eq, writeField_some hv, List.append_assoc]
      have hvalue : f.value.toList ≠ [] := by simpa using hv
      simp only [hlead, readValue_written hvalue parted_fields, Option.bind_some, hrest,
        Option.map_some, String.ofList_toList]

theorem readLine_line (hd : (fs.map (·.key)).Nodup) (hk : ∀ f ∈ fs, Plain f.key) :
    readLine message (fs.map (·.key)) (line message fs) = some fs := by
  have hmessage : message.toList.isPrefixOf? (line message fs).toList =
      some (fs.flatMap writeField) := by
    rw [List.isPrefixOf?_eq_some_iff_append_eq, line, String.toList_ofList]
  rw [readLine, hmessage]
  exact readFields_written hd hk

/-- A line break in a value is written as something else. -/
theorem no_break_writeValue : '\n' ∉ writeValue v := by
  have hescape : ∀ c, '\n' ∉ escape c := by
    intro c
    unfold escape
    split
    · rename_i h
      rcases (by simpa using h : c = '"' ∨ c = '\\') with rfl | rfl <;> decide
    · split
      · decide
      · rename_i hn
        simpa using Ne.symm hn
  unfold writeValue
  split
  · simp [hescape]
  · rename_i hv
    exact fun hc => absurd ((by simpa using hv : ∀ c ∈ v, separates c = false) _ hc) (by decide)

theorem no_break_writeField (hk : Plain f.key) : '\n' ∉ writeField f := by
  unfold writeField
  split
  · simp
  · have : '\n' ∉ f.key.toList := fun hc => absurd (hk '\n' hc) (by decide)
    simp [this, no_break_writeValue]

/-- A line is one line and says all of its fields. Whoever knows its message and its keys reads every
value in it, an absent field as an empty one, so that no other values give the same line. -/
theorem line_tells_fields (hm : '\n' ∉ message.toList) (hd : (fs.map (·.key)).Nodup)
    (hk : ∀ f ∈ fs, Plain f.key) (hg : gs.map (·.key) = fs.map (·.key)) :
    '\n' ∉ (line message fs).toList ∧
    readLine message (fs.map (·.key)) (line message fs) = some fs ∧
    (line message gs = line message fs ↔ gs = fs) := by
  refine ⟨?_, readLine_line hd hk, fun h => ?_, fun h => h ▸ rfl⟩
  · rw [line, String.toList_ofList, List.mem_append, List.mem_flatMap]
    rintro (hc | ⟨f, hf, hc⟩)
    · exact hm hc
    · exact no_break_writeField (hk f hf) hc
  · have hplain : ∀ g ∈ gs, Plain g.key := by
      intro g hmem
      obtain ⟨f, hf, hfg⟩ := List.mem_map.1 (hg ▸ List.mem_map_of_mem hmem)
      exact hfg ▸ hk f hf
    have hread : readLine message (gs.map (·.key)) (line message gs) = some gs :=
      readLine_line (hg ▸ hd) hplain
    rw [hg, h, readLine_line hd hk] at hread
    exact (Option.some.inj hread).symm

/-- A value that looks like a second field is told from that field. -/
def forged : List Field := [.text "op" "acknowledge error=busy", .text "error" ""]

def reported : List Field := [.text "op" "acknowledge", .text "error" "busy\n"]

theorem forged_line_tells_fields : '\n' ∉ (line "failed" reported).toList ∧
    readLine "failed" ["op", "error"] (line "failed" reported) = some reported ∧
    line "failed" forged ≠ line "failed" reported := by
  have hk : ∀ f ∈ reported, Plain f.key := by decide
  obtain ⟨hbreak, hread, hsame⟩ :=
    @line_tells_fields reported forged "failed" (by decide) (by decide) hk (by decide)
  exact ⟨hbreak, hread, fun h => absurd (hsame.1 h) (by decide)⟩

end DurableTopic.Log

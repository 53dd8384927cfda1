import DurableTopic.Proofs.Grammar
import Mathlib.Algebra.Group.Nat.Defs
/-! What is written is read back: numbers, fields, and whole messages. A machine holds fewer than 2^64
bytes, so that the length of a field can be read back. -/
namespace DurableTopic.Wire

theorem toNat_ofNat_of_lt {n : Nat} (h : n < 256) : (UInt8.ofNat n).toNat = n := by
  rw [UInt8.toNat_ofNat']
  exact Nat.mod_eq_of_lt h

theorem digits_writeVarint (n : Nat) : Digits (writeVarint n) n := by
  induction n using writeVarint.induct with
  | case1 n hn =>
    have hb := toNat_ofNat_of_lt (by omega : n < 256)
    have hlast := Digits.last (b := UInt8.ofNat n) (by omega)
    rw [writeVarint, if_pos hn]
    rwa [hb] at hlast
  | case2 n hn ih =>
    have hb := toNat_ofNat_of_lt (by omega : n % 128 + 128 < 256)
    have hmore := Digits.more (b := UInt8.ofNat (n % 128 + 128)) (by omega) ih
    have hsum : (UInt8.ofNat (n % 128 + 128)).toNat - 128 + 128 * (n / 128) = n := by omega
    rw [writeVarint, if_neg hn]
    rwa [hsum] at hmore

theorem length_writeVarint {k n : Nat} (h : n < 128 ^ (k + 1)) : (writeVarint n).length ≤ k + 1 := by
  induction k generalizing n with
  | zero =>
    rw [writeVarint, if_pos (by simpa using h)]
    exact Nat.le_refl 1
  | succ k ih =>
    rw [writeVarint]
    split
    · simp
    · have hd : n / 128 < 128 ^ (k + 1) := by
        rw [Nat.div_lt_iff_lt_mul (by decide), ← Nat.pow_succ]
        exact h
      simpa using ih hd

/-- A number that fits a word is written as itself. -/
theorem varint_writeVarint {n : Nat} (h : n < wordSize) : Varint (writeVarint n) n := by
  have hn : n < 128 ^ 10 := Nat.lt_of_lt_of_le h (by decide)
  have := Varint.mk (length_writeVarint hn) (digits_writeVarint n)
  rwa [Nat.mod_eq_of_lt h] at this

/-- What stands behind the tag of a field. -/
def Field.body (f : Field) : Bytes :=
  match f.payload with
  | .int n => writeVarint n
  | .bytes b => writeVarint b.length ++ b
  | .fixed b => b

/-- A field that a message may have, and that can be read back. -/
structure Field.Fits (f : Field) : Prop where
  number : 0 < f.number
  tag : f.tag < 0x100000000
  payload : match f.payload with
    | .int n => n < wordSize
    | .bytes b => b.length < wordSize
    | .fixed _ => False

variable {f : Field} {fs : List Field} {rest b : Bytes}

theorem write_eq : f.write = writeVarint f.tag ++ f.body := rfl

theorem Field.Fits.whole (h : f.Fits) : Whole f.write (.field f) := by
  obtain ⟨number, payload⟩ := f
  obtain ⟨hpos, htag, hp⟩ := h
  have hv := varint_writeVarint (Nat.lt_trans htag (by decide))
  cases payload with
  | int n => exact .int ⟨hpos, by decide, htag, hv⟩ (varint_writeVarint hp)
  | bytes b => exact .bytes ⟨hpos, by decide, htag, hv⟩ (varint_writeVarint hp)
  | fixed b => exact hp.elim

theorem readFields_write (h : f.Fits) :
    readFields [] (f.write ++ rest) = (readFields [] rest).map (f :: ·) :=
  readFields_field h.whole

/-- Fields that can be read back are read back, and in their order. -/
theorem readFields_writeFields (h : ∀ f ∈ fs, f.Fits) : readFields [] (writeFields fs) = some fs := by
  induction fs with
  | nil => simp [writeFields, readFields]
  | cons f fs ih =>
    rw [writeFields, List.flatMap_cons, readFields_write (h f List.mem_cons_self), ← writeFields,
      ih fun g hg => h g (List.mem_cons_of_mem _ hg)]
    rfl

/-- A field of one of the first numbers, whose payload is an integer or bytes. -/
structure Field.Plain (f : Field) : Prop where
  number : 0 < f.number ∧ f.number < 16
  payload : match f.payload with
    | .int n => n < wordSize
    | .bytes _ => True
    | .fixed _ => False

theorem length_le_of_mem (hf : f ∈ fs) : f.body.length ≤ (writeFields fs).length := by
  obtain ⟨before, after, rfl⟩ := List.append_of_mem hf
  simp only [writeFields, List.flatMap_append, List.flatMap_cons, write_eq, List.length_append]
  omega

/-- Fields that fit a machine together can be read back. -/
theorem fits_of_length (hl : (writeFields fs).length < wordSize) (hp : ∀ f ∈ fs, f.Plain) :
    ∀ f ∈ fs, f.Fits := by
  intro f hf
  have hlen := length_le_of_mem hf
  obtain ⟨⟨hpos, hlt⟩, hpay⟩ := hp f hf
  refine ⟨hpos, ?_, ?_⟩
  · unfold Field.tag
    split
    · omega
    · omega
    · split <;> omega
  · obtain ⟨number, payload⟩ := f
    cases payload with
    | int n => exact hpay
    | bytes b =>
      simp only [Field.body, List.length_append] at hlen ⊢
      omega
    | fixed b => exact hpay

theorem word_cast (i : Int) : (word i : Int) = i % 0x10000000000000000 :=
  Int.toNat_of_nonneg (Int.emod_nonneg _ (by decide))

theorem word_lt (i : Int) : word i < wordSize := by
  have := Int.emod_lt_of_pos i (show (0 : Int) < 0x10000000000000000 by decide)
  rw [← word_cast] at this
  exact Int.ofNat_lt.1 this

theorem ofNat_word (i : Int64) : Int64.ofNat (word i.toInt) = i := by
  apply Int64.toInt_inj.1
  rw [Int64.toInt_ofNat', word_cast, Int.bmod, Int.emod_emod_of_dvd _ (by decide), ← Int.bmod]
  exact i.toInt_bmod

theorem ofNat_word32 (i : Int32) : Int32.ofNat (word i.toInt) = i := by
  apply Int32.toInt_inj.1
  rw [Int32.toInt_ofNat', word_cast, Int.bmod, Int.emod_emod_of_dvd _ (by decide), ← Int.bmod]
  exact i.toInt_bmod

theorem utf8_eq_nil {s : String} (h : Text.utf8 s = []) : s = "" := by
  have := Text.ofUtf8?_utf8 s
  rw [h] at this
  exact Option.some.inj (this.symm.trans (Text.ofUtf8?_utf8 ""))

section

variable {α : Type} {step : α → Field → Option α} {a : α} {n : Nat}

theorem plain_intField (h : 0 < n ∧ n < 16) (i : Int) : ∀ f ∈ intField n i, f.Plain := by
  intro f hf
  unfold intField at hf
  split at hf
  · cases hf
  · obtain rfl := List.mem_singleton.1 hf
    exact ⟨h, word_lt i⟩

theorem plain_bytes (h : 0 < n ∧ n < 16) (b : Bytes) : Field.Plain ⟨n, .bytes b⟩ := ⟨h, trivial⟩

theorem plain_bytesField (h : 0 < n ∧ n < 16) (b : Bytes) : ∀ f ∈ bytesField n b, f.Plain := by
  intro f hf
  unfold bytesField at hf
  split at hf
  · cases hf
  · obtain rfl := List.mem_singleton.1 hf
    exact plain_bytes h b

/-- A field that is left out has its default value, which the reader has already. -/
theorem foldlM_intField {i : Int} {a' : α} (h : i = 0 → a' = a)
    (hs : step a ⟨n, .int (word i)⟩ = some a') : (intField n i).foldlM step a = some a' := by
  unfold intField
  split
  · rw [h ‹_›]
    rfl
  · simpa using hs

theorem foldlM_bytesField {b : Bytes} {a' : α} (h : b = [] → a' = a)
    (hs : step a ⟨n, .bytes b⟩ = some a') : (bytesField n b).foldlM step a = some a' := by
  unfold bytesField
  split
  · rw [h (List.isEmpty_iff.1 ‹_›)]
    rfl
  · simpa using hs

end

theorem plain_identityFields (i : MessageId) : ∀ f ∈ identityFields i, f.Plain := by
  intro f hf
  rcases List.mem_append.1 hf with hf | hf
  · exact plain_bytesField (by decide) _ f hf
  · exact plain_intField (by decide) _ f hf

theorem identity_read (i : MessageId) : (identityFields i).foldlM identityStep {} = some i := by
  have hvalue : (bytesField 1 (Text.utf8 i.value)).foldlM identityStep {} =
      some { value := i.value } :=
    foldlM_bytesField (fun h => by rw [utf8_eq_nil h]) (by simp [identityStep, Text.ofUtf8?_utf8])
  rw [identityFields, List.foldlM_append, hvalue]
  refine foldlM_intField (fun h => ?_) (by simp [identityStep, ofNat_word])
  have : i.sequence = 0 := Int64.toInt_inj.1 h
  rw [← this]

theorem property_read (key value : String) :
    (propertyFields key value).foldlM propertyStep ("", "") = some (key, value) := by
  simp [propertyFields, propertyStep, Text.ofUtf8?_utf8]

theorem plain_propertyFields (key value : String) : ∀ f ∈ propertyFields key value, f.Plain := by
  intro f hf
  simp only [propertyFields, List.mem_cons, List.not_mem_nil, or_false] at hf
  rcases hf with rfl | rfl <;> exact plain_bytes (by decide) _

theorem plain_messageFields (m : Message) : ∀ f ∈ messageFields m, f.Plain := by
  intro f hf
  simp only [messageFields, List.mem_append] at hf
  rcases hf with ((((hf | hf) | hf) | hf) | hf) | hf
  · obtain ⟨i, -, rfl⟩ := List.mem_map.1 hf
    exact plain_bytes (by decide) _
  · exact plain_bytesField (by decide) _ f hf
  · exact plain_intField (by decide) _ f hf
  · exact plain_bytesField (by decide) _ f hf
  · obtain ⟨⟨k, v⟩, -, rfl⟩ := List.mem_map.1 hf
    exact plain_bytes (by decide) _
  · exact plain_intField (by decide) _ f hf

/-- The fields inside a field of a message that fits a machine can be read back. -/
theorem inner_read (gs : List Field) (hl : (writeFields fs).length < wordSize) {n : Nat}
    (hf : ⟨n, .bytes (writeFields gs)⟩ ∈ fs) (hp : ∀ g ∈ gs, g.Plain) :
    readFields [] (writeFields gs) = some gs := by
  refine readFields_writeFields (fits_of_length ?_ hp)
  have := length_le_of_mem hf
  simp only [Field.body, List.length_append] at this
  omega

/-- Each property is put in its turn. -/
theorem properties_read (ps : List (String × String)) {m : Message}
    (hr : ∀ p ∈ ps, readFields [] (writeFields (propertyFields p.1 p.2)) =
      some (propertyFields p.1 p.2)) :
    (ps.map fun (k, v) => (⟨5, .bytes (writeFields (propertyFields k v))⟩ : Field)).foldlM
        messageStep m =
      some { m with properties := ps.foldl (fun props p => props.put p.1 p.2) m.properties } := by
  induction ps generalizing m with
  | nil => rfl
  | cons p ps ih =>
    have hp : messageStep m ⟨5, .bytes (writeFields (propertyFields p.1 p.2))⟩ =
        some { m with properties := m.properties.put p.1 p.2 } := by
      simp [messageStep, hr p List.mem_cons_self, property_read]
    rw [List.map_cons, List.foldlM_cons, hp]
    exact ih fun q hq => hr q (List.mem_cons_of_mem _ hq)

/-- A message is read back as it was written; of properties with the same key the last counts. -/
theorem decode_encode {m : Message} (hl : (encode m).length < wordSize) :
    decode (encode m) = .ok { m with
      properties := m.properties.pairs.foldl (fun props p => props.put p.1 p.2) ∅ } := by
  have hplain := plain_messageFields m
  have hid : (m.id.toList.map fun i => (⟨1, .bytes (writeFields (identityFields i))⟩ : Field)).foldlM
      messageStep {} = some { id := m.id } := by
    cases hm : m.id with
    | none => rfl
    | some i =>
      have hin := inner_read (identityFields i) hl (n := 1)
        (by simp [messageFields, hm]) (plain_identityFields i)
      simp [messageStep, hin, Message.identity, identity_read]
  have hdest : (bytesField 2 (Text.utf8 m.destination)).foldlM messageStep { id := m.id } =
      some { id := m.id, destination := m.destination } :=
    foldlM_bytesField (fun h => by rw [utf8_eq_nil h]) (by simp [messageStep, Text.ofUtf8?_utf8])
  have hpriority : (intField 3 m.priority.toInt).foldlM messageStep
      { id := m.id, destination := m.destination } =
      some { id := m.id, destination := m.destination, priority := m.priority } := by
    refine foldlM_intField (fun h => ?_) (by simp [messageStep, ofNat_word32])
    rw [show m.priority = 0 from Int32.toInt_inj.1 h]
  have hbody : (bytesField 4 m.body).foldlM messageStep
      { id := m.id, destination := m.destination, priority := m.priority } =
      some { id := m.id, destination := m.destination, priority := m.priority, body := m.body } :=
    foldlM_bytesField (fun h => by rw [h]) rfl
  have hprops := properties_read m.properties.pairs
    (m := { id := m.id, destination := m.destination, priority := m.priority, body := m.body })
    fun p hp => inner_read _ hl (n := 5)
      (by simp only [messageFields, List.mem_append, List.mem_map]
          exact Or.inl (Or.inr ⟨p, hp, rfl⟩)) (plain_propertyFields p.1 p.2)
  have hall : (messageFields m).foldlM messageStep {} = some { m with
      properties := m.properties.pairs.foldl (fun props p => props.put p.1 p.2) ∅ } := by
    simp only [messageFields, List.foldlM_append, hid, hdest, hpriority, hbody, hprops,
      Option.bind_eq_bind, Option.bind_some]
    refine foldlM_intField (fun h => ?_) (by simp [messageStep, ofNat_word])
    rw [show m.timestampMs = 0 from Int64.toInt_inj.1 h]
  rw [decode, decode?, encode, readFields_writeFields (fits_of_length hl hplain),
    Option.bind_eq_bind, Option.bind_some, hall]

end DurableTopic.Wire

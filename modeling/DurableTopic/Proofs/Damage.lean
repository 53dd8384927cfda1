import DurableTopic.Proofs.Wire
/-! Messages are read back as they were written, and damaged bytes are no message. -/
namespace DurableTopic.Wire

/-- What some bytes are meant to be. -/
inductive Level where
  | message
  | identity
  | property

/-- What the bytes of a field are meant to be, if they have fields of their own. -/
def Level.within : Level → Nat → Option Level
  | .message, 1 => some .identity
  | .message, 5 => some .property
  | _, _ => none

/-- The fields that hold a text. -/
def Level.isText : Level → Nat → Bool
  | .message, 2 | .identity, 1 | .property, 1 | .property, 2 => true
  | _, _ => false

/-- What is known after some fields have been read. -/
def Level.State : Level → Type
  | .message => Message
  | .identity => MessageId
  | .property => String × String

/-- Takes one more field into account. -/
def Level.step : (l : Level) → l.State → Field → Option l.State
  | .message => messageStep
  | .identity => identityStep
  | .property => propertyStep

/-- Bytes that end inside a field, or have a text that is none: themselves, or in a field that has fields
of its own. -/
inductive Damaged : Level → Bytes → Prop where
  | cut {l : Level} {before bs : Bytes} {is : List Item} (hs : Items before is) (h : Cut bs) :
      Damaged l (before ++ bs)
  | illegible {l : Level} {bs b : Bytes} {n : Nat} (hs : Stands ⟨n, .bytes b⟩ bs)
      (ht : l.isText n) (h : ∀ s, Text.utf8 s ≠ b) : Damaged l bs
  | inside {l l' : Level} {bs b : Bytes} {n : Nat} (hs : Stands ⟨n, .bytes b⟩ bs)
      (hw : l.within n = some l') (h : Damaged l' b) : Damaged l bs

/-- Whatever is known already, nothing can be read of the bytes. -/
def Level.Rejects (l : Level) (bs : Bytes) : Prop :=
  ∀ start : l.State, ((readFields [] bs).bind fun fs => fs.foldlM l.step start) = none

variable {l l' : Level} {bs b p w : Bytes} {f : Field} {n k : Nat} {i : Item}

theorem utf8_of_ofUtf8? {s : String} (h : Text.ofUtf8? b = some s) : Text.utf8 s = b := by
  unfold Text.ofUtf8? String.fromUTF8? at h
  split at h
  · cases h
    rfl
  · cases h

/-- No bytes are read that have a field which is not taken. -/
theorem rejects_of_field (hs : Stands f bs) (h : ∀ a, l.step a f = none) : l.Rejects bs := by
  intro start
  obtain ⟨before, w, after, is, rfl, hi, ho, hw⟩ := hs
  rcases readFields_items [] (w ++ after) hi with hnone | ⟨fs, gs, ho', hfs⟩
  · rw [hnone]
    rfl
  · obtain rfl : [] = gs := Option.some.inj (ho.symm.trans ho')
    rw [hfs, readFields_field hw]
    cases readFields [] after with
    | none => rfl
    | some later => simp [List.foldlM_append, h]

theorem step_illegible (ht : l.isText n) (h : ∀ s, Text.utf8 s ≠ b) (a : l.State) :
    l.step a ⟨n, .bytes b⟩ = none := by
  have hnone : Text.ofUtf8? b = none :=
    Option.eq_none_iff_forall_ne_some.2 fun s hs => h s (utf8_of_ofUtf8? hs)
  unfold Level.isText at ht
  split at ht
  · exact congrArg (Option.map fun s => { a with destination := s }) hnone
  · exact congrArg (Option.map fun s => { a with value := s }) hnone
  · exact congrArg (Option.map fun s => (s, a.2)) hnone
  · exact congrArg (Option.map fun s => (a.1, s)) hnone
  · cases ht

theorem step_identity (m : Message) : messageStep m ⟨1, .bytes b⟩ =
    ((readFields [] b).bind fun fs => fs.foldlM identityStep m.identity).map
      fun i => { m with id := some i } := by
  cases h : readFields [] b with
  | none => simp [messageStep, h]
  | some fs => cases hs : fs.foldlM identityStep m.identity <;> simp [messageStep, h, hs]

theorem step_property (m : Message) : messageStep m ⟨5, .bytes b⟩ =
    ((readFields [] b).bind fun fs => fs.foldlM propertyStep ("", "")).map
      fun (k, v) => { m with properties := m.properties.put k v } := by
  cases h : readFields [] b with
  | none => simp [messageStep, h]
  | some fs => cases hs : fs.foldlM propertyStep ("", "") <;> simp [messageStep, h, hs]

theorem step_inside (hw : l.within n = some l') (h : l'.Rejects b) (a : l.State) :
    l.step a ⟨n, .bytes b⟩ = none := by
  unfold Level.within at hw
  split at hw
  · cases hw
    exact (step_identity a).trans (congrArg (Option.map _) (h (Message.identity a)))
  · cases hw
    exact (step_property a).trans (congrArg (Option.map _) (h ("", "")))
  · cases hw

/-- Damaged bytes are not read. -/
theorem Damaged.rejected (h : Damaged l bs) : l.Rejects bs := by
  induction h with
  | cut hs hcut =>
    intro start
    rcases readFields_items [] _ hs with hnone | ⟨fs, gs, -, hfs⟩
    · rw [hnone]
      rfl
    · rw [hfs, readFields_cut hcut]
      rfl
  | illegible hs ht htext => exact rejects_of_field hs (step_illegible ht htext)
  | inside hs hw _ ih => exact rejects_of_field hs (step_inside hw ih)

theorem decode_rejects (h : Level.message.Rejects bs) : decode bs =
    .error (.codec ("failed to decode topic message (" ++ toString bs.length ++ " bytes)")) := by
  have hnone : decode? bs = none := h ({} : Message)
  rw [decode, hnone]

theorem unended_of_prefix (h : Digits bs n) (hp : p <+: bs) (hne : p ≠ bs) : Unended p := by
  induction h generalizing p with
  | last _ =>
    rcases List.prefix_cons_iff.1 hp with rfl | ⟨q, rfl, hq⟩
    · exact fun b hb => absurd hb List.not_mem_nil
    · exact absurd (by rw [List.prefix_nil.1 hq]) hne
  | more hb _ ih =>
    rcases List.prefix_cons_iff.1 hp with rfl | ⟨q, rfl, hq⟩
    · exact fun b hb => absurd hb List.not_mem_nil
    · exact List.forall_mem_cons.2 ⟨hb, ih hq fun h => hne (by rw [h])⟩

theorem Varint.unended (h : Varint bs n) (hp : p <+: bs) (hne : p ≠ bs) : Unended p := by
  cases h with
  | mk _ hd => exact unended_of_prefix hd hp hne

/-- What is cut off behind some bytes is cut off inside them or inside what follows them. -/
theorem prefix_append_cases {t : Bytes} (hp : p <+: t ++ w) (hne : p ≠ t ++ w) :
    (p <+: t ∧ p ≠ t) ∨ ∃ q, p = t ++ q ∧ q <+: w ∧ q ≠ w := by
  by_cases ht : t <+: p
  · obtain ⟨q, rfl⟩ := ht
    exact Or.inr ⟨q, rfl, (List.prefix_append_right_inj t).1 hp, fun h => hne (by rw [h])⟩
  · rcases List.prefix_or_prefix_of_prefix hp (List.prefix_append t w) with h | h
    · exact Or.inl ⟨h, fun he => ht (he ▸ List.prefix_refl p)⟩
    · exact absurd h ht

theorem prefix_length_lt (hp : p <+: b) (hne : p ≠ b) : p.length < b.length :=
  Nat.lt_of_le_of_ne hp.length_le fun h => hne (hp.eq_of_length h)

/-- A whole field that is cut short anywhere. -/
theorem cut_of_prefix (h : Whole w i) (hp : p <+: w) (hnil : p ≠ []) (hne : p ≠ w) : Cut p := by
  cases h with
  | int ht hb =>
    rcases prefix_append_cases hp hne with ⟨hp, hne⟩ | ⟨q, rfl, hq, hqne⟩
    · exact .tag hnil (ht.varint.unended hp hne)
    · exact .int ht (hb.unended hq hqne)
  | long ht hb =>
    rcases prefix_append_cases hp hne with ⟨hp, hne⟩ | ⟨q, rfl, hq, hqne⟩
    · exact .tag hnil (ht.varint.unended hp hne)
    · exact .long ht (hb ▸ prefix_length_lt hq hqne)
  | short ht hb =>
    rcases prefix_append_cases hp hne with ⟨hp, hne⟩ | ⟨q, rfl, hq, hqne⟩
    · exact .tag hnil (ht.varint.unended hp hne)
    · exact .short ht (hb ▸ prefix_length_lt hq hqne)
  | bytes ht hl =>
    rcases prefix_append_cases hp hne with ⟨hp, hne⟩ | ⟨q, rfl, hq, hqne⟩
    · exact .tag hnil (ht.varint.unended hp hne)
    · rcases prefix_append_cases hq hqne with ⟨hq, hqne⟩ | ⟨r, rfl, hr, hrne⟩
      · exact .size ht (hl.unended hq hqne)
      · exact .bytes ht hl (prefix_length_lt hr hrne)
  | groupStart ht | groupEnd ht => exact .tag hnil (ht.varint.unended hp hne)

theorem items_writeFields {fs : List Field} (h : ∀ f ∈ fs, f.Fits) :
    Items (writeFields fs) (fs.map .field) := by
  induction fs with
  | nil => exact .nil
  | cons f fs ih =>
    exact .cons (h f List.mem_cons_self).whole (ih fun g hg => h g (List.mem_cons_of_mem _ hg))

/-- The first bytes of some fields end between two fields or inside one. -/
theorem prefix_writeFields {fs : List Field} (h : ∀ f ∈ fs, f.Fits) (hp : p <+: writeFields fs) :
    ∃ before after, fs = before ++ after ∧
      (p = writeFields before ∨ ∃ q, p = writeFields before ++ q ∧ Cut q) := by
  induction fs generalizing p with
  | nil => exact ⟨[], [], rfl, Or.inl (List.prefix_nil.1 hp)⟩
  | cons f fs ih =>
    have hf := h f List.mem_cons_self
    by_cases hall : p = writeFields (f :: fs)
    · exact ⟨f :: fs, [], (List.append_nil _).symm, Or.inl hall⟩
    rcases prefix_append_cases hp hall with ⟨hp, hne⟩ | ⟨q, rfl, hq, -⟩
    · by_cases hnil : p = []
      · exact ⟨[], f :: fs, rfl, Or.inl hnil⟩
      · exact ⟨[], f :: fs, rfl, Or.inr ⟨p, rfl, cut_of_prefix hf.whole hp hnil hne⟩⟩
    · obtain ⟨before, after, hfs, hend⟩ := ih (fun g hg => h g (List.mem_cons_of_mem _ hg)) hq
      refine ⟨f :: before, after, by rw [hfs, List.cons_append], ?_⟩
      rcases hend with rfl | ⟨r, rfl, hr⟩
      · exact Or.inl rfl
      · exact Or.inr ⟨r, (List.append_assoc ..).symm, hr⟩

/-- Of the first bytes of a stored message nothing is read, unless they end between two fields. -/
theorem decode_prefix {m : Message} (hl : (encode m).length < wordSize) (hp : p <+: encode m) :
    (∃ before after, messageFields m = before ++ after ∧ p = writeFields before) ∨ decode p =
      .error (.codec ("failed to decode topic message (" ++ toString p.length ++ " bytes)")) := by
  have hfits := fits_of_length hl (plain_messageFields m)
  obtain ⟨before, after, hm, rfl | ⟨q, rfl, hq⟩⟩ := prefix_writeFields hfits hp
  · exact Or.inl ⟨before, after, hm, rfl⟩
  · have hitems := items_writeFields fun f hf => hfits f (hm ▸ List.mem_append_left after hf)
    exact Or.inr (decode_rejects (Damaged.cut hitems hq).rejected)

theorem find?_perm {m n : Assoc String String} (hd : (m.pairs.map (·.1)).Nodup)
    (hp : n.pairs.Perm m.pairs) (key : String) : n.find? key = m.find? key := by
  have hdn : (n.pairs.map (·.1)).Nodup := (hp.map _).nodup_iff.2 hd
  refine Option.ext fun v => ⟨fun h => ?_, fun h => ?_⟩
  · exact Assoc.find?_of_mem hd (hp.mem_iff.1 (Assoc.mem_of_find? h))
  · exact Assoc.find?_of_mem hdn (hp.mem_iff.2 (Assoc.mem_of_find? h))

/-- A message whose length is a machine word is read back as it was written, in whatever order its
properties were written. Bytes that end inside a field, or that have a text which is none, are not read,
and the failure says how many they are. -/
theorem messages_read_back :
    (∀ (m : Message) (ps : List (String × String)), (m.properties.pairs.map (·.1)).Nodup →
      ps.Perm m.properties.pairs → (encode { m with properties := ⟨ps⟩ }).length < wordSize →
      decode (encode { m with properties := ⟨ps⟩ }) = .ok { m with properties := ⟨ps⟩ } ∧
      ∀ key, (⟨ps⟩ : Assoc String String).find? key = m.properties.find? key) ∧
    ∀ bs, Damaged .message bs → decode bs =
      .error (.codec ("failed to decode topic message (" ++ toString bs.length ++ " bytes)")) := by
  refine ⟨fun m ps hd hp hl => ⟨?_, find?_perm hd hp⟩, fun bs h => decode_rejects h.rejected⟩
  have hput := Assoc.foldl_put (m := ⟨ps⟩) ((hp.map _).nodup_iff.2 hd)
  rw [decode_encode hl, hput]

/-- A message whose fields are as far from their defaults as they can be. -/
def farthest : Message where
  id := some {}
  destination := "Ünter"
  priority := Int32.minValue
  body := [0, 255]
  properties := ⟨[("a", ""), ("", "b")]⟩
  timestampMs := Int64.minValue

/-- A message whose first field says that it has five bytes, but there are two. -/
def truncated : Bytes := [0x0a, 0x05, 0x61, 0x62]

theorem farthest_read_back :
    decode (encode { farthest with properties := ⟨[("", "b"), ("a", "")]⟩ }) =
      .ok { farthest with properties := ⟨[("", "b"), ("a", "")]⟩ } ∧
    decode truncated = .error (.codec "failed to decode topic message (4 bytes)") := by
  obtain ⟨hback, hdamaged⟩ := messages_read_back
  have hlen : (encode { farthest with properties := ⟨[("", "b"), ("a", "")]⟩ }).length < wordSize := by
    decide +kernel
  have htag : Tag [0x0a] 1 2 := ⟨by decide, by decide, by decide, .mk (by decide) (.last (by decide))⟩
  have hsize : Varint [0x05] 5 := .mk (by decide) (.last (by decide))
  have hcut : Cut ([0x0a] ++ ([0x05] ++ [0x61, 0x62])) := .bytes htag hsize (by decide)
  refine ⟨(hback farthest _ (by decide) (.swap ..) hlen).1, ?_⟩
  exact hdamaged truncated (.cut .nil hcut)

end DurableTopic.Wire

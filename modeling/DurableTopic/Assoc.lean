/-! Finite maps as lists of pairs in the order in which their keys were first put in. Main
statements: what a look-up gives after a put and after an erase. -/

namespace DurableTopic

/-- A finite map. Only the first pair of a key counts. -/
structure Assoc (κ : Type) (α : Type) where
  pairs : List (κ × α) := []
  deriving Repr, DecidableEq

namespace Assoc

variable {κ α : Type} [DecidableEq κ]

instance : EmptyCollection (Assoc κ α) := ⟨⟨[]⟩⟩
instance : Inhabited (Assoc κ α) := ⟨∅⟩

def find? (m : Assoc κ α) (k : κ) : Option α := m.pairs.lookup k

/-- Replaces the value of a key in its place; a new key comes last. -/
def put (m : Assoc κ α) (k : κ) (a : α) : Assoc κ α := ⟨go m.pairs⟩
where
  go : List (κ × α) → List (κ × α)
    | [] => [(k, a)]
    | p :: ps => if p.1 = k then (k, a) :: ps else p :: go ps

def erase (m : Assoc κ α) (k : κ) : Assoc κ α := ⟨m.pairs.filter (·.1 ≠ k)⟩

def values (m : Assoc κ α) : List α := m.pairs.map (·.2)

def size (m : Assoc κ α) : Nat := m.pairs.length

@[simp] theorem find?_empty (k : κ) : (∅ : Assoc κ α).find? k = none := rfl

theorem lookup_go (k : κ) (a : α) (j : κ) (ps : List (κ × α)) :
    (put.go k a ps).lookup j = if j = k then some a else ps.lookup j := by
  induction ps with
  | nil =>
    by_cases h : j = k
    · simp [put.go, h]
    · have : (j == k) = false := by simpa using h
      simp [put.go, List.lookup_cons, h, this]
  | cons p ps ih =>
    obtain ⟨i, b⟩ := p
    by_cases hi : i = k
    · subst hi
      by_cases h : j = i
      · simp [put.go, h]
      · have : (j == i) = false := by simpa using h
        simp [put.go, List.lookup_cons, h, this]
    · by_cases h : j = i
      · subst h; simp [put.go, hi]
      · have : (j == i) = false := by simpa using h
        simp [put.go, List.lookup_cons, hi, this, ih]

theorem find?_put (m : Assoc κ α) (k j : κ) (a : α) :
    (m.put k a).find? j = if j = k then some a else m.find? j :=
  lookup_go k a j m.pairs

theorem find?_erase (m : Assoc κ α) (k j : κ) :
    (m.erase k).find? j = if j = k then none else m.find? j := by
  obtain ⟨ps⟩ := m
  simp only [find?, erase]
  induction ps with
  | nil => simp [List.lookup_nil]
  | cons p ps ih =>
    obtain ⟨i, b⟩ := p
    by_cases hi : i = k
    · subst hi
      by_cases h : j = i
      · simpa [h] using ih
      · have : (j == i) = false := by simpa using h
        simpa [List.lookup_cons, this, h] using ih
    · by_cases h : j = i
      · subst h; simp [hi]
      · have : (j == i) = false := by simpa using h
        simpa [List.lookup_cons, hi, this] using ih

theorem mem_of_find? {m : Assoc κ α} {k : κ} {a : α} (h : m.find? k = some a) :
    (k, a) ∈ m.pairs := by
  obtain ⟨before, after, hp, -⟩ := List.lookup_eq_some_iff.1 h
  simp [hp]

/-- Where no key has two pairs, every pair counts. -/
theorem find?_of_mem {m : Assoc κ α} {k : κ} {a : α} (hd : (m.pairs.map (·.1)).Nodup)
    (h : (k, a) ∈ m.pairs) : m.find? k = some a := by
  obtain ⟨before, after, hp⟩ := List.append_of_mem h
  refine List.lookup_eq_some_iff.2 ⟨before, after, hp, fun p hb => ?_⟩
  have hp' := hd
  rw [hp, List.map_append, List.nodup_append] at hp'
  simpa using (hp'.2.2 p.1 (List.mem_map_of_mem hb) k (by simp)).symm

theorem mem_put {m : Assoc κ α} {k : κ} {a : α} {p : κ × α} (h : p ∈ (m.put k a).pairs) :
    p = (k, a) ∨ p ∈ m.pairs := by
  obtain ⟨ps⟩ := m
  simp only [put] at h ⊢
  induction ps with
  | nil => simpa [put.go] using h
  | cons q ps ih =>
    unfold put.go at h
    split at h
    · rcases List.mem_cons.1 h with rfl | h
      · exact Or.inl rfl
      · exact Or.inr (List.mem_cons_of_mem _ h)
    · rcases List.mem_cons.1 h with rfl | h
      · exact Or.inr List.mem_cons_self
      · exact (ih h).imp id (List.mem_cons_of_mem _)

theorem nodup_put {m : Assoc κ α} {k : κ} {a : α} (h : (m.pairs.map (·.1)).Nodup) :
    ((m.put k a).pairs.map (·.1)).Nodup := by
  obtain ⟨ps⟩ := m
  simp only [put] at h ⊢
  induction ps with
  | nil => simp [put.go]
  | cons q ps ih =>
    rw [List.map_cons, List.nodup_cons] at h
    unfold put.go
    split
    · rename_i hq
      rw [List.map_cons, List.nodup_cons]
      exact ⟨hq ▸ h.1, h.2⟩
    · rename_i hq
      rw [List.map_cons, List.nodup_cons]
      refine ⟨fun hm => ?_, ih h.2⟩
      obtain ⟨p, hp, hpq⟩ := List.mem_map.1 hm
      rcases mem_put (m := ⟨ps⟩) hp with rfl | hp
      · exact hq hpq.symm
      · exact h.1 (hpq ▸ List.mem_map_of_mem hp)

/-- A new key comes last. -/
theorem put_new {m : Assoc κ α} {k : κ} {a : α} (h : k ∉ m.pairs.map (·.1)) :
    m.put k a = ⟨m.pairs ++ [(k, a)]⟩ := by
  obtain ⟨ps⟩ := m
  simp only [put] at h ⊢
  induction ps with
  | nil => rfl
  | cons p ps ih =>
    simp only [List.map_cons, List.mem_cons, not_or] at h
    have hgo : put.go k a ps = ps ++ [(k, a)] := congrArg pairs (ih h.2)
    rw [put.go, if_neg (Ne.symm h.1), hgo]
    rfl

/-- A map whose pairs are put one after the other is the map itself. -/
theorem foldl_put {m : Assoc κ α} (hd : (m.pairs.map (·.1)).Nodup) :
    m.pairs.foldl (fun n p => n.put p.1 p.2) ∅ = m := by
  suffices h : ∀ (ps : List (κ × α)) (n : Assoc κ α), ((n.pairs ++ ps).map (·.1)).Nodup →
      ps.foldl (fun n p => n.put p.1 p.2) n = ⟨n.pairs ++ ps⟩ from h m.pairs ∅ hd
  intro ps
  induction ps with
  | nil => simp
  | cons p ps ih =>
    intro n hn
    have hnew : p.1 ∉ n.pairs.map (·.1) := by
      rw [List.map_append, List.nodup_append] at hn
      exact fun hm => hn.2.2 p.1 hm p.1 (by simp) rfl
    rw [List.foldl_cons, put_new hnew, ih _ (by simpa using hn)]
    simp

theorem nodup_erase {m : Assoc κ α} {k : κ} (h : (m.pairs.map (·.1)).Nodup) :
    ((m.erase k).pairs.map (·.1)).Nodup :=
  h.sublist (List.filter_sublist.map _)

end Assoc
end DurableTopic

import DurableTopic.Proofs.Fields
import DurableTopic.Proofs.Literals
/-! Loading a configuration whose documents differ in one text. A scalar that looks like a truth value or
a number is taken for one, also where there must be a text, and then nothing is loaded. -/
namespace DurableTopic.Config

/-- A field that holds a text. -/
inductive TextField where
  | level | pattern | path | connectionUri | destination | serviceName | otlpEndpoint
  deriving Repr, DecidableEq

namespace TextField

/-- The keys that lead to a field. -/
def keys : TextField → List String
  | level => ["logging", "level"]
  | pattern => ["logging", "pattern"]
  | path => ["database", "sqlite", "path"]
  | connectionUri => ["database", "postgres", "connection_uri"]
  | destination => ["store", "destination"]
  | serviceName => ["telemetry", "service_name"]
  | otlpEndpoint => ["telemetry", "otlp_endpoint"]

/-- What a field holds, where there is one. -/
def get? : TextField → Settings → Option String
  | level, s => some s.logging.level
  | pattern, s => some s.logging.pattern
  | path, s => match s.database with
    | some (.sqlite a _ _) => some a
    | _ => none
  | connectionUri, s => match s.database with
    | some (.postgres a _) => some a
    | _ => none
  | destination, s => some s.store.destination
  | serviceName, s => some s.telemetry.serviceName
  | otlpEndpoint, s => some s.telemetry.otlpEndpoint

/-- Settings of which nothing but one field is another. -/
def put (a : String) : TextField → Settings → Settings
  | level, s => { s with logging := { s.logging with level := a } }
  | pattern, s => { s with logging := { s.logging with pattern := a } }
  | path, s => { s with database := s.database.map (.atPath a) }
  | connectionUri, s => { s with database := s.database.map (.onServer a) }
  | destination, s => { s with store := { s.store with destination := a } }
  | serviceName, s => { s with telemetry := { s.telemetry with serviceName := a } }
  | otlpEndpoint, s => { s with telemetry := { s.telemetry with otlpEndpoint := a } }

end TextField

section

variable {x y : Value} {f : Frame Value}

theorem frames_two {gs : List (Frame Value)} {p q : String} (h : gs.map (·.key) = [p, q]) :
    ∃ o i, gs = [o, i] ∧ o.key = p ∧ i.key = q := by
  obtain ⟨o, gs, rfl, ho, h⟩ := List.map_eq_cons_iff.1 h
  obtain ⟨i, gs, rfl, hi, h⟩ := List.map_eq_cons_iff.1 h
  obtain rfl := List.map_eq_nil_iff.1 h
  exact ⟨o, i, rfl, ho, hi⟩

theorem frames_three {gs : List (Frame Value)} {p q r : String} (h : gs.map (·.key) = [p, q, r]) :
    ∃ o m i, gs = [o, m, i] ∧ o.key = p ∧ m.key = q ∧ i.key = r := by
  obtain ⟨o, gs, rfl, ho, h⟩ := List.map_eq_cons_iff.1 h
  obtain ⟨m, i, rfl, hm, hi⟩ := frames_two h
  exact ⟨o, m, i, rfl, ho, hm, hi⟩

section

variable {σ : Type} {inner : σ → String → Value → Option σ} {first : σ} {place k : String}
  {gs : List (Frame Value)} {s : Settings} (F : Field Settings.set place σ)
  (hF : F.read = (·.foldFields inner first)) (G : Field inner k String) (hG : G.read = (·.text?))
  (hkeys : gs.map (·.key) = [place, k])

include hF hG hkeys

/-- A text is set in the section that its frames lead to. -/
theorem section_text (h : Settings.ofValue? (Value.fill gs x) = some s) (a : String) :
    Settings.ofValue? (Value.fill gs (.text a)) = some (F.modify (G.set a) s) ∧
      G.get (F.get (F.modify (G.set a) s)) = a := by
  obtain ⟨o, i, rfl, ho, hi⟩ := frames_two hkeys
  exact exchanged (section_exchanges F hF hi (text_exchanges G hG a)) ho h

theorem section_refused (hy : y ≠ .null) (h : y.text? = none) :
    Settings.ofValue? (Value.fill gs y) = none := by
  obtain ⟨o, i, rfl, ho, hi⟩ := frames_two hkeys
  have hread : F.read (.struct (i.entries y)) = none := by
    rw [hF]
    exact refused (G.refuses hy (hG ▸ h)) hi
  exact refused (F.refuses nofun hread) ho

end

/-- What a value is read as, with a text where it has another value. -/
theorem ofValue?_text (t : TextField) {gs : List (Frame Value)} (hkeys : gs.map (·.key) = t.keys)
    {s : Settings} (h : Settings.ofValue? (Value.fill gs x) = some s) (a : String) :
    Settings.ofValue? (Value.fill gs (.text a)) = some (t.put a s) ∧
      t.get? (t.put a s) = some a := by
  cases t with
  | level =>
    obtain ⟨hs, ha⟩ := section_text loggingField rfl levelField rfl hkeys h a
    exact ⟨hs, congrArg some ha⟩
  | pattern =>
    obtain ⟨hs, ha⟩ := section_text loggingField rfl patternField rfl hkeys h a
    exact ⟨hs, congrArg some ha⟩
  | path =>
    obtain ⟨o, m, i, rfl, ho, hm, hi⟩ := frames_three hkeys
    obtain ⟨hs, d, hd, wal, ms, rfl⟩ := exchanged
      (section_exchanges databaseField rfl hm (path_exchanges hi a)) ho h
    have hd : (TextField.path.put a s).database = some (.sqlite a wal ms) := hd
    exact ⟨hs, by simp only [TextField.get?, hd]⟩
  | connectionUri =>
    obtain ⟨o, m, i, rfl, ho, hm, hi⟩ := frames_three hkeys
    obtain ⟨hs, d, hd, n, rfl⟩ := exchanged
      (section_exchanges databaseField rfl hm (connectionUri_exchanges hi a)) ho h
    have hd : (TextField.connectionUri.put a s).database = some (.postgres a n) := hd
    exact ⟨hs, by simp only [TextField.get?, hd]⟩
  | destination =>
    obtain ⟨hs, ha⟩ := section_text storeField rfl destinationField rfl hkeys h a
    exact ⟨hs, congrArg some ha⟩
  | serviceName =>
    obtain ⟨hs, ha⟩ := section_text telemetryField rfl serviceField rfl hkeys h a
    exact ⟨hs, congrArg some ha⟩
  | otlpEndpoint =>
    obtain ⟨hs, ha⟩ := section_text telemetryField rfl endpointField rfl hkeys h a
    exact ⟨hs, congrArg some ha⟩

/-- No value is read that has something else than a text where there must be one. -/
theorem ofValue?_other (t : TextField) {gs : List (Frame Value)} (hkeys : gs.map (·.key) = t.keys)
    (hy : y ≠ .null) (h : y.text? = none) : Settings.ofValue? (Value.fill gs y) = none := by
  cases t with
  | level => exact section_refused loggingField rfl levelField rfl hkeys hy h
  | pattern => exact section_refused loggingField rfl patternField rfl hkeys hy h
  | path =>
    obtain ⟨o, m, i, rfl, ho, hm, hi⟩ := frames_three hkeys
    exact refused (databaseField.refuses nofun
      (refused (fun c => choose_refused nofun (path_refused hy h hi)) hm)) ho
  | connectionUri =>
    obtain ⟨o, m, i, rfl, ho, hm, hi⟩ := frames_three hkeys
    exact refused (databaseField.refuses nofun
      (refused (fun c => choose_refused nofun (connectionUri_refused hy h hi)) hm)) ho
  | destination => exact section_refused storeField rfl destinationField rfl hkeys hy h
  | serviceName => exact section_refused telemetryField rfl serviceField rfl hkeys hy h
  | otlpEndpoint => exact section_refused telemetryField rfl endpointField rfl hkeys hy h

end

section

variable {t : Tree} {k : String} {entries before after : List (String × Tree)}
  {m m' : Assoc String Value} {f : Frame Value} {v w x y : Value}

theorem writeEntries_cons : Value.writeEntries m ((k, t) :: after) = .ok m' ↔
    ∃ x, Value.write ((m.find? k).getD .null) t = .ok x ∧
      Value.writeEntries (m.put k x) after = .ok m' := by
  rw [Value.writeEntries]
  cases Value.write ((m.find? k).getD .null) t with
  | error e => simp [bind, Except.bind]
  | ok x => simp [bind, Except.bind]

theorem writeEntries_append : Value.writeEntries m (before ++ after) = .ok m' ↔
    ∃ b, Value.writeEntries m before = .ok b ∧ Value.writeEntries b after = .ok m' := by
  induction before generalizing m with
  | nil => simp [Value.writeEntries]
  | cons p before ih =>
    obtain ⟨k, t⟩ := p
    rw [List.cons_append, writeEntries_cons]
    constructor
    · rintro ⟨x, hx, h⟩
      obtain ⟨b, hb, h⟩ := ih.1 h
      exact ⟨b, writeEntries_cons.2 ⟨x, hx, hb⟩, h⟩
    · rintro ⟨b, hb, h⟩
      obtain ⟨x, hx, hb⟩ := writeEntries_cons.1 hb
      exact ⟨x, hx, ih.2 ⟨b, hb, h⟩⟩

theorem ne_put (hm : ∀ p ∈ m.pairs, p.1 ≠ k) {j : String} (hj : j ≠ k) :
    ∀ p ∈ (m.put j x).pairs, p.1 ≠ k := by
  intro p hp
  rcases Assoc.mem_put hp with rfl | hp
  · exact hj
  · exact hm p hp

theorem writeEntries_ne (h : Value.writeEntries m entries = .ok m') (hm : ∀ p ∈ m.pairs, p.1 ≠ k)
    (hk : ∀ p ∈ entries, p.1 ≠ k) : ∀ p ∈ m'.pairs, p.1 ≠ k := by
  induction entries generalizing m with
  | nil =>
    cases h
    exact hm
  | cons p entries ih =>
    obtain ⟨x, -, h⟩ := writeEntries_cons.1 h
    exact ih h (ne_put hm (hk p List.mem_cons_self)) fun q hq => hk q (List.mem_cons_of_mem p hq)

/-- What stands under another key does not tell what stands at a place. -/
theorem find?_entries (hk : k ≠ f.key) :
    (⟨f.entries x⟩ : Assoc String Value).find? k = (⟨f.entries y⟩ : Assoc String Value).find? k := by
  have hne : (k == f.key) = false := by simpa using hk
  simp [Assoc.find?, Frame.entries, List.lookup_append, List.lookup_cons, hne]

theorem go_append {ps qs : List (String × Value)} : Assoc.put.go k w (ps ++ qs) =
    if k ∈ ps.map (·.1) then Assoc.put.go k w ps ++ qs else ps ++ Assoc.put.go k w qs := by
  induction ps with
  | nil => rfl
  | cons p ps ih =>
    by_cases hp : p.1 = k
    · simp [Assoc.put.go, hp]
    · have hne : ¬ k = p.1 := Ne.symm hp
      simp only [List.cons_append, Assoc.put.go, if_neg hp, ih, List.map_cons, List.mem_cons, hne,
        false_or]
      split <;> rfl

/-- What is put under another key leaves a place as it is. -/
theorem put_entries (f : Frame Value) (hk : k ≠ f.key) (w : Value) : ∃ g : Frame Value,
    g.key = f.key ∧ ∀ x, (⟨f.entries x⟩ : Assoc String Value).put k w = ⟨g.entries x⟩ := by
  by_cases hmem : k ∈ f.before.map (·.1)
  · refine ⟨⟨(Assoc.put ⟨f.before⟩ k w).pairs, f.key, f.after, ne_put f.before_ne hk, f.after_ne⟩,
      rfl, fun x => ?_⟩
    simp [Assoc.put, Frame.entries, go_append, hmem]
  · refine ⟨⟨f.before, f.key, (Assoc.put ⟨f.after⟩ k w).pairs, f.before_ne, ne_put f.after_ne hk⟩,
      rfl, fun x => ?_⟩
    simp [Assoc.put, Frame.entries, go_append, hmem, Assoc.put.go, hk.symm]

theorem writeEntries_entries (h : Value.writeEntries ⟨f.entries x⟩ after = .ok m)
    (hk : ∀ p ∈ after, p.1 ≠ f.key) : ∃ g : Frame Value, g.key = f.key ∧ m = ⟨g.entries x⟩ ∧
      ∀ y, Value.writeEntries ⟨f.entries y⟩ after = .ok ⟨g.entries y⟩ := by
  induction after generalizing f with
  | nil =>
    cases h
    exact ⟨f, rfl, rfl, fun _ => rfl⟩
  | cons p after ih =>
    obtain ⟨k, t⟩ := p
    have hne := hk _ List.mem_cons_self
    obtain ⟨w, hw, h⟩ := writeEntries_cons.1 h
    obtain ⟨g, hg, hput⟩ := put_entries f hne w
    rw [hput] at h
    obtain ⟨g', hg', hm, hall⟩ := ih h fun q hq => hg ▸ hk q (List.mem_cons_of_mem _ hq)
    refine ⟨g', hg'.trans hg, hm, fun y => writeEntries_cons.2 ⟨w, ?_, ?_⟩⟩
    · rw [← hw, find?_entries hne]
    · rw [hput, hall y]

theorem ofTree_map : Value.ofTree (.map entries) = .ok v ↔
    ∃ m, Value.writeEntries ∅ entries = .ok m ∧ v = .struct m.pairs := by
  rw [Value.ofTree, Value.write]
  change (_ <$> Value.writeEntries ∅ entries) = _ ↔ _
  cases Value.writeEntries ∅ entries with
  | error e => simp [Functor.map, Except.map]
  | ok m => simp [Functor.map, Except.map, eq_comm]

theorem find?_new (h : ∀ p ∈ m.pairs, p.1 ≠ k) : m.find? k = none :=
  List.lookup_eq_none_iff.2 fun p hp => by simpa using (h p hp).symm

/-- What stands at a place does not matter to what is around it. -/
theorem ofTree_fill {fs : List (Frame Tree)} (h : Value.ofTree (Tree.fill fs t) = .ok v) :
    ∃ gs : List (Frame Value), gs.map (·.key) = fs.map (·.key) ∧
      (∃ x, Value.ofTree t = .ok x ∧ v = Value.fill gs x) ∧
      ∀ u y, Value.ofTree u = .ok y → Value.ofTree (Tree.fill fs u) = .ok (Value.fill gs y) := by
  -- from the root: the entries around a node become the entries around its value
  induction fs generalizing v with
  | nil => exact ⟨[], rfl, ⟨v, h, rfl⟩, fun u y hu => hu⟩
  | cons f fs ih =>
    obtain ⟨m, hm, rfl⟩ := ofTree_map.1 h
    obtain ⟨b, hb, hm⟩ := writeEntries_append.1 hm
    obtain ⟨w, hw, hm⟩ := writeEntries_cons.1 hm
    have hnew : ∀ p ∈ b.pairs, p.1 ≠ f.key := writeEntries_ne hb nofun f.before_ne
    rw [find?_new hnew] at hw
    obtain ⟨gs, hkeys, ⟨x, hx, rfl⟩, hall⟩ := ih hw
    let g : Frame Value := ⟨b.pairs, f.key, [], hnew, nofun⟩
    have hput : ∀ x, b.put f.key x = ⟨g.entries x⟩ := fun x => Assoc.put_new fun hmem => by
      obtain ⟨p, hp, hkey⟩ := List.mem_map.1 hmem
      exact hnew p hp hkey
    rw [hput] at hm
    obtain ⟨g', hg, rfl, hafter⟩ := writeEntries_entries hm f.after_ne
    refine ⟨g' :: gs, by rw [List.map_cons, List.map_cons, hkeys, hg], ⟨x, hx, rfl⟩,
      fun u y hu => ofTree_map.2 ⟨_, writeEntries_append.2 ⟨b, hb, writeEntries_cons.2
        ⟨_, ?_, (hput _).symm ▸ hafter _⟩⟩, rfl⟩⟩
    rw [find?_new hnew]
    exact hall u y hu

theorem numbersOfFields_append {a b : List (String × Value)} :
    Value.numbersOfFields (a ++ b) = Value.numbersOfFields a ++ Value.numbersOfFields b := by
  induction a with
  | nil => rfl
  | cons p a ih => simp [Value.numbersOfFields, ih]

/-- The numbers in a value are those at a place and those around it. -/
theorem numbers_fill (gs : List (Frame Value)) :
    ∃ b a, ∀ x, (Value.fill gs x).numbers = b ++ x.numbers ++ a := by
  induction gs with
  | nil => exact ⟨[], [], fun x => by simp [Value.fill]⟩
  | cons g gs ih =>
    obtain ⟨b, a, h⟩ := ih
    refine ⟨Value.numbersOfFields g.before ++ b, a ++ Value.numbersOfFields g.after, fun x => ?_⟩
    simp [Value.fill, Value.numbers, Frame.entries, numbersOfFields_append, Value.numbersOfFields, h]

/-- Where a value is printed, another one in a place of it is printed if it can be alone. -/
theorem printed_fill {p : Printer} {gs : List (Frame Value)}
    (h : (Value.fill gs x).numbers.findSome? p = none) (y : Value) :
    (Value.fill gs y).numbers.findSome? p = y.numbers.findSome? p := by
  obtain ⟨b, a, hnumbers⟩ := numbers_fill gs
  simp only [hnumbers, List.findSome?_append, Option.or_eq_none_iff] at h ⊢
  rw [h.1.1, h.2, Option.none_or, Option.or_none]

end

section

variable {field text path : String} {s s' : Settings} {d : Database}
  {wal : Option Bool} {ms : UInt32}

theorem required_bind {α : Type} {next : Unit → Except Failure α} {x : α} :
    (required field text >>= next) = .ok x ↔ text ≠ "" ∧ next () = .ok x := by
  by_cases h : text = ""
  · subst h
    exact iff_of_false nofun fun h => h.1 rfl
  · have hr : required field text = .ok () := if_neg (by simpa [String.isEmpty_iff] using h)
    rw [hr]
    exact (and_iff_right h).symm

theorem sqlite_filled : (Database.sqlite path wal ms).filled = .ok d ↔
    path ≠ "" ∧ d = .sqlite path wal (orElse ms defaultBusyTimeoutMs) := by
  rw [Database.filled, required_bind]
  exact and_congr_right fun _ =>
    ⟨fun h => (Except.ok.inj h).symm, fun h => congrArg Except.ok h.symm⟩

theorem postgres_filled {uri : String} {n : UInt32} : (Database.postgres uri n).filled = .ok d ↔
    uri ≠ "" ∧ d = .postgres uri (orElse n defaultMaxConnections) := by
  rw [Database.filled, required_bind]
  exact and_congr_right fun _ =>
    ⟨fun h => (Except.ok.inj h).symm, fun h => congrArg Except.ok h.symm⟩

/-- A configuration is accepted if it names a topic and its database is accepted, and only what it
leaves open is filled in. -/
theorem settings_filled : s.filled = .ok s' ↔ s.store.destination ≠ "" ∧
    ∃ d, (s.database.getD .memory).filled = .ok d ∧ s' = { s with
      store := { s.store with defaultBatchSize := orElse s.store.defaultBatchSize defaultBatchSize }
      database := some d } := by
  rw [Settings.filled, required_bind]
  refine and_congr_right fun _ => ?_
  cases (s.database.getD .memory).filled with
  | error e => exact iff_of_false nofun nofun
  | ok d =>
    constructor
    · intro h
      cases h
      exact ⟨d, rfl, rfl⟩
    · rintro ⟨d', hd, rfl⟩
      cases hd
      rfl

theorem filled_atPath {e : Database} {a : String} (h : e.filled = .ok d) (ha : a ≠ "") :
    (e.atPath a).filled = .ok (d.atPath a) := by
  cases e with
  | memory =>
    cases h
    rfl
  | sqlite p wal ms =>
    obtain ⟨-, rfl⟩ := sqlite_filled.1 h
    exact sqlite_filled.2 ⟨ha, rfl⟩
  | postgres uri n =>
    obtain ⟨hu, rfl⟩ := postgres_filled.1 h
    exact postgres_filled.2 ⟨hu, rfl⟩

theorem filled_onServer {e : Database} {a : String} (h : e.filled = .ok d) (ha : a ≠ "") :
    (e.onServer a).filled = .ok (d.onServer a) := by
  cases e with
  | memory =>
    cases h
    rfl
  | sqlite p wal ms =>
    obtain ⟨hp, rfl⟩ := sqlite_filled.1 h
    exact sqlite_filled.2 ⟨hp, rfl⟩
  | postgres uri n =>
    obtain ⟨-, rfl⟩ := postgres_filled.1 h
    exact postgres_filled.2 ⟨ha, rfl⟩

theorem getD_map {g : Database → Database} (hg : g .memory = .memory) (o : Option Database) :
    (o.map g).getD .memory = g (o.getD .memory) := by
  cases o with
  | none => exact hg.symm
  | some d => rfl

/-- To fill in what is left open and to set a text to another one are two things. -/
theorem filled_put (t : TextField) {a : String} (h : s.filled = .ok s') (ha : a ≠ "") :
    (t.put a s).filled = .ok (t.put a s') := by
  obtain ⟨hd, d, hf, rfl⟩ := settings_filled.1 h
  cases t with
  | path =>
    refine settings_filled.2 ⟨hd, _, ?_, rfl⟩
    exact (congrArg _ (getD_map rfl s.database)).trans (filled_atPath hf ha)
  | connectionUri =>
    refine settings_filled.2 ⟨hd, _, ?_, rfl⟩
    exact (congrArg _ (getD_map rfl s.database)).trans (filled_onServer hf ha)
  | destination => exact settings_filled.2 ⟨ha, d, hf, rfl⟩
  | level | pattern | serviceName | otlpEndpoint => exact settings_filled.2 ⟨hd, d, hf, rfl⟩

theorem path_get? {a : String} (h : TextField.path.get? s = some a) :
    ∃ wal ms, s.database = some (.sqlite a wal ms) := by
  simp only [TextField.get?] at h
  split at h
  · rename_i b wal ms hs
    cases h
    exact ⟨wal, ms, hs⟩
  · cases h

theorem connectionUri_get? {a : String} (h : TextField.connectionUri.get? s = some a) :
    ∃ n, s.database = some (.postgres a n) := by
  simp only [TextField.get?] at h
  split at h
  · rename_i b n hs
    cases h
    exact ⟨n, hs⟩
  · cases h

theorem filled_get? (t : TextField) {a : String} (h : s.filled = .ok s') (ht : t.get? s = some a) :
    t.get? s' = some a := by
  obtain ⟨hd, d, hf, rfl⟩ := settings_filled.1 h
  cases t with
  | path =>
    obtain ⟨wal, ms, hs⟩ := path_get? ht
    rw [hs, Option.getD_some] at hf
    obtain ⟨-, rfl⟩ := sqlite_filled.1 hf
    rfl
  | connectionUri =>
    obtain ⟨n, hs⟩ := connectionUri_get? ht
    rw [hs, Option.getD_some] at hf
    obtain ⟨-, rfl⟩ := postgres_filled.1 hf
    rfl
  | level | pattern | destination | serviceName | otlpEndpoint => exact ht

end

/-- A text that is taken for a truth value or a number, as far as its first NUL. -/
def Mistaken (a : String) : Prop :=
  a = "true" ∨ a = "false" ∨ (Text.beforeNul a).toList = [] ∨
    Number.Literal.Numeric (Text.beforeNul a).toList

theorem mistaken_iff {a : String} :
    Mistaken a ↔ a = "true" ∨ a = "false" ∨ (Number.Literal.read? a).isSome := by
  rw [Mistaken, Number.Literal.read?_isSome]

instance (a : String) : Decidable (Mistaken a) := decidable_of_iff' _ mistaken_iff

theorem ofScalar_plain {a : String} (h : ¬Mistaken a) : Value.ofScalar a = .text a := by
  rw [mistaken_iff, not_or, not_or, Option.not_isSome_iff_eq_none] at h
  rw [Value.ofScalar, if_neg h.1, if_neg h.2.1, h.2.2]

theorem ofScalar_mistaken {a : String} (h : Mistaken a) :
    (∃ b, Value.ofScalar a = .flag b) ∨ ∃ x, Value.ofScalar a = .number x := by
  unfold Value.ofScalar
  split
  · exact Or.inl ⟨_, rfl⟩
  · rename_i htrue
    split
    · exact Or.inl ⟨_, rfl⟩
    · rename_i hfalse
      obtain ⟨x, hx⟩ := Option.isSome_iff_exists.1
        (((mistaken_iff.1 h).resolve_left htrue).resolve_left hfalse)
      exact Or.inr ⟨x, by rw [hx]⟩

variable {p : Printer} {source : Source} {f : Frame Tree} {fs : List (Frame Tree)} {t : Tree}
  {v : Value} {s : Settings}

/-- A document that sets something is accepted if what it says is. -/
theorem load_fill (h : Value.ofTree (Tree.fill (f :: fs) t) = .ok v) :
    load source (.ok (Tree.fill (f :: fs) t)) p = Settings.ofPrinted p v := by
  show (Value.ofTree (Tree.fill (f :: fs) t) >>= _) = _
  rw [h]
  rfl

theorem value_of_load (h : load source (.ok (Tree.fill (f :: fs) t)) p = .ok s) :
    ∃ v, Value.ofTree (Tree.fill (f :: fs) t) = .ok v := by
  cases hv : Value.ofTree (Tree.fill (f :: fs) t) with
  | error e =>
    have hload : (Value.ofTree (Tree.fill (f :: fs) t) >>= _) = .ok s := h
    rw [hv] at hload
    cases hload
  | ok v => exact ⟨v, rfl⟩

theorem ofPrinted_ok : Settings.ofPrinted p v = .ok s ↔
    v.numbers.findSome? p = none ∧ ∃ s₀, Settings.ofValue? v = some s₀ ∧ s₀.filled = .ok s := by
  unfold Settings.ofPrinted
  cases v.numbers.findSome? p with
  | some reason => simp
  | none => cases Settings.ofValue? v <;> simp

theorem keys_ne (t : TextField) : t.keys ≠ [] := by
  cases t <;> nofun

/-- What is said of a scalar where there must be a text, if it is taken for something else. That a number
is not printed is said before its field is looked at. -/
def refusal (p : Printer) (a : String) : Failure :=
  match Value.ofScalar a with
  | .number x => (p x).elim (invalid "(protobuf message)") unprintable
  | _ => invalid "(protobuf message)"

theorem ofPrinted_mistaken {a : String} (ha : Mistaken a)
    (hn : v.numbers.findSome? p = (Value.ofScalar a).numbers.findSome? p)
    (hv : Value.ofScalar a ≠ .null → (Value.ofScalar a).text? = none → Settings.ofValue? v = none) :
    Settings.ofPrinted p v = .error (refusal p a) := by
  unfold Settings.ofPrinted refusal
  rcases ofScalar_mistaken ha with ⟨b, hb⟩ | ⟨x, hx⟩
  · rw [hn, hv (by simp [hb]) (by rw [hb]; rfl), hb]
    rfl
  · rw [hn, hv (by simp [hx]) (by rw [hx]; rfl), hx]
    cases hp : p x <;> simp [Value.numbers, hp]

/-- What is loaded from a document that would be accepted with something else in the place of a text
field, when a scalar stands there. One that looks like a truth value or a number is refused, whatever
field it is for; any other one is what the field holds, and nothing else changes. -/
theorem text_settings (p : Printer) (t : TextField) {fs : List (Frame Tree)}
    (hkeys : fs.map (·.key) = t.keys) {source : Source} {u : Tree} {s : Settings}
    (h : load source (.ok (Tree.fill fs u)) p = .ok s) (a : String) :
    (¬Mistaken a → load source (.ok (Tree.fill fs (.scalar a))) p = .ok (t.put a s) ∧
      t.get? (t.put a s) = some a) ∧
    (Mistaken a → load source (.ok (Tree.fill fs (.scalar a))) p = .error (refusal p a)) := by
  cases fs with
  | nil => exact absurd hkeys.symm (keys_ne t)
  | cons f fs =>
    obtain ⟨v, hv⟩ := value_of_load h
    rw [load_fill hv] at h
    -- what is accepted in the place only shows that the document around it is
    obtain ⟨gs, hgs, ⟨x, -, rfl⟩, hall⟩ := ofTree_fill hv
    obtain ⟨hprinted, s₀, hs, hfilled⟩ := ofPrinted_ok.1 h
    have hprint := printed_fill hprinted (Value.ofScalar a)
    rw [← hgs] at hkeys
    rw [load_fill (hall (.scalar a) _ rfl)]
    constructor
    · intro ha
      obtain ⟨hread, hget⟩ := ofValue?_text t hkeys hs a
      have hne : a ≠ "" := fun hempty => ha (hempty ▸ by decide)
      rw [ofScalar_plain ha] at hprint ⊢
      exact ⟨ofPrinted_ok.2 ⟨hprint, _, hread, filled_put t hfilled hne⟩,
        filled_get? t (filled_put t hfilled hne) hget⟩
    · intro ha
      exact ofPrinted_mistaken ha hprint (ofValue?_other t hkeys)

/-- The place of the destination in a document that has nothing else. -/
def destinationFrames : List (Frame Tree) :=
  [⟨[], "store", [], nofun, nofun⟩, ⟨[], "destination", [], nofun, nofun⟩]

/-- What is loaded if the destination is all that is set. -/
def toDestination (a : String) : Settings :=
  { store := { destination := a, defaultBatchSize := 100 }, database := some .memory }

theorem destination_texts :
    load .text (.ok (Tree.fill destinationFrames (.scalar "42nd"))) .strict =
      .ok (toDestination "42nd") ∧
    load .text (.ok (Tree.fill destinationFrames (.scalar " -0x2A.8p+1"))) .strict =
      .error (invalid "(protobuf message)") ∧
    load .text (.ok (Tree.fill destinationFrames (.scalar "1e999"))) .strict =
      .error (unprintable "(protobuf message)") := by
  have h : load .text (.ok (Tree.fill destinationFrames (.scalar "orders"))) .strict =
      .ok (toDestination "orders") := by decide +kernel
  obtain ⟨hplain, -⟩ := text_settings .strict .destination rfl h "42nd"
  obtain ⟨-, hnumber⟩ := text_settings .strict .destination rfl h " -0x2A.8p+1"
  obtain ⟨-, hinfinite⟩ := text_settings .strict .destination rfl h "1e999"
  refine ⟨(hplain (by decide +kernel)).1, ?_, ?_⟩
  · rw [hnumber (by decide +kernel)]
    decide +kernel
  · rw [hinfinite (by decide +kernel)]
    decide +kernel

/-- A topic cannot be named with digits alone, where it can be named otherwise. -/
theorem digits_not_accepted :
    load .text (.ok (.map [("store", .map [("destination", .scalar "orders")])])) =
      .ok (toDestination "orders") ∧
    load .text (.ok (.map [("store", .map [("destination", .scalar "42")])])) =
      .error (invalid "(protobuf message)") := by
  constructor <;> rfl

end DurableTopic.Config

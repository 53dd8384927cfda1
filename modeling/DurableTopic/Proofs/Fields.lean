import DurableTopic.Config.Load
/-! Records that are set field by field from the entries of a struct, which stand in any order. Who takes
one value under a name and can take another one there, comes to a record that differs in this one
field. -/
namespace DurableTopic.Config

/-- A place in a map: its key, and the entries around it, which have other keys. -/
structure Frame (ν : Type) where
  before : List (String × ν)
  key : String
  after : List (String × ν)
  before_ne : ∀ p ∈ before, p.1 ≠ key
  after_ne : ∀ p ∈ after, p.1 ≠ key

/-- The entries of a map with something at a place. -/
def Frame.entries {ν : Type} (f : Frame ν) (x : ν) : List (String × ν) :=
  f.before ++ (f.key, x) :: f.after

/-- A document with a node at a place, which frames lead to from the root. -/
def Tree.fill : List (Frame Tree) → Tree → Tree
  | [], t => t
  | f :: fs, t => .map (f.entries (fill fs t))

/-- A value with another one at a place in it. -/
def Value.fill : List (Frame Value) → Value → Value
  | [], x => x
  | f :: fs, x => .struct (f.entries (fill fs x))

/-- A part of a record, which can be read and replaced. -/
structure Part (σ τ : Type) where
  get : σ → τ
  set : τ → σ → σ
  get_set : ∀ a s, get (set a s) = a := by intros; rfl
  set_get : ∀ s, set (get s) s = s := by intros; rfl
  set_set : ∀ a b s, set a (set b s) = set a s := by intros; rfl

def Part.modify {σ τ : Type} (p : Part σ τ) (f : τ → τ) (s : σ) : σ := p.set (f (p.get s)) s

/-- A part that a value is read into, where a record is set field by field. -/
structure Field {σ : Type} (step : σ → String → Value → Option σ) (k : String) (τ : Type) extends
    Part σ τ where
  read : Value → Option τ
  here : ∀ s v, step s k v = v.setting read s (set · s) := by intros; rfl
  elsewhere : ∀ s a k' v, k' ≠ k → step (set a s) k' v = (step s k' v).map (set a)

/-- Who takes one value under a name takes another one there, and everything else as before. What comes
of it is changed and has a property. -/
structure Exchanges {σ : Type} (step : σ → String → Value → Option σ) (k : String) (x y : Value)
    (g : σ → σ) (P : σ → Prop) : Prop where
  here : ∀ s s', step s k x = some s' → step s k y = some (g s') ∧ P (g s')
  elsewhere : ∀ s k' v, k' ≠ k → step (g s) k' v = (step s k' v).map g
  holds : ∀ s s' k' v, k' ≠ k → step s k' v = some s' → P (g s) → P (g s')

section

variable {σ τ α : Type} {step : σ → String → Value → Option σ} {start r s s' : σ} {k : String}
  {v x y : Value} {g : σ → σ} {P : σ → Prop} {f : Frame Value}

theorem setting_of_ne {read : Value → Option α} {set : α → σ} (h : v ≠ .null) :
    v.setting read s set = (read v).map set := by
  cases v <;> first | rfl | exact absurd rfl h

theorem setting_map {read : Value → Option α} {set set' : α → σ} (hs : s' = g s)
    (h : ∀ a, set' a = g (set a)) : v.setting read s' set' = (v.setting read s set).map g := by
  subst hs
  obtain rfl : set' = g ∘ set := funext h
  cases v <;> simp [Value.setting, Option.map_map]

theorem foldFields_entries : (Value.struct (f.entries x)).foldFields step start =
    (f.before.foldlM (fun s p => step s p.1 p.2) start).bind fun s => (step s f.key x).bind fun s =>
      f.after.foldlM (fun s p => step s p.1 p.2) s := by
  show (f.before ++ (f.key, x) :: f.after).foldlM _ start = _
  rw [List.foldlM_append]
  rfl

theorem exchanged_after {after : List (String × Value)} (h : Exchanges step k x y g P)
    (hk : ∀ p ∈ after, p.1 ≠ k) (hs : P (g s))
    (hr : after.foldlM (fun s p => step s p.1 p.2) s = some r) :
    after.foldlM (fun s p => step s p.1 p.2) (g s) = some (g r) ∧ P (g r) := by
  induction after generalizing s with
  | nil =>
    obtain rfl : s = r := by simpa using hr
    exact ⟨rfl, hs⟩
  | cons p after ih =>
    have hne := hk p List.mem_cons_self
    rw [List.foldlM_cons] at hr ⊢
    obtain ⟨s', hs', hr⟩ := Option.bind_eq_some_iff.1 hr
    have hg : step (g s) p.1 p.2 = some (g s') := by
      rw [h.elsewhere s p.1 p.2 hne, hs', Option.map_some]
    obtain ⟨hr, hP⟩ := ih (fun q hq => hk q (List.mem_cons_of_mem p hq))
      (h.holds s s' p.1 p.2 hne hs' hs) hr
    exact ⟨Option.bind_eq_some_iff.2 ⟨_, hg, hr⟩, hP⟩

/-- Where one value can stand, the other one can. -/
theorem exchanged (h : Exchanges step k x y g P) (hf : f.key = k)
    (hr : (Value.struct (f.entries x)).foldFields step start = some r) :
    (Value.struct (f.entries y)).foldFields step start = some (g r) ∧ P (g r) := by
  subst hf
  rw [foldFields_entries] at hr ⊢
  obtain ⟨s, hs, hr⟩ := Option.bind_eq_some_iff.1 hr
  obtain ⟨s', hs', hr⟩ := Option.bind_eq_some_iff.1 hr
  obtain ⟨hy, hP⟩ := h.here s s' hs'
  obtain ⟨hr, hP⟩ := exchanged_after h f.after_ne hP hr
  rw [hs, Option.bind_some, hy, Option.bind_some]
  exact ⟨hr, hP⟩

/-- A struct is refused if one of its fields is. -/
theorem refused (h : ∀ s, step s k y = none) (hf : f.key = k) :
    (Value.struct (f.entries y)).foldFields step start = none := by
  subst hf
  rw [foldFields_entries]
  cases f.before.foldlM (fun s p => step s p.1 p.2) start with
  | none => rfl
  | some s => rw [Option.bind_some, h s, Option.bind_none]

namespace Field

variable (F : Field step k τ)

theorem keeps {k' : String} (hk : k' ≠ k) (h : step s k' v = some s') : F.get s' = F.get s := by
  have hset := F.elsewhere s (F.get s) k' v hk
  rw [F.set_get, h, Option.map_some, Option.some.injEq] at hset
  rw [hset, F.get_set]

theorem refuses (hy : y ≠ .null) (h : F.read y = none) (s : σ) : step s k y = none := by
  rw [F.here, setting_of_ne hy, h, Option.map_none]

/-- A field takes another value if that is read as what the field is to hold instead. -/
theorem exchanges {f : τ → τ} {Q : τ → Prop} (hy : y ≠ .null)
    (h : ∀ s s', x.setting F.read s (F.set · s) = some s' →
      ∃ b, F.read y = some b ∧ F.modify f s' = F.set b s ∧ Q b) :
    Exchanges step k x y (F.modify f) (fun s => Q (F.get s)) where
  here s s' hs := by
    rw [F.here] at hs
    obtain ⟨b, hb, hmodify, hQ⟩ := h s s' hs
    rw [F.here, setting_of_ne hy, hb, Option.map_some, hmodify]
    exact ⟨rfl, (F.get_set b s).symm ▸ hQ⟩
  elsewhere s k' v hk := by
    rw [Part.modify, F.elsewhere s _ k' v hk]
    cases hs : step s k' v with
    | none => rfl
    | some s' => rw [Option.map_some, Option.map_some, Part.modify, F.keeps hk hs]
  holds s s' k' v hk hs hQ := by
    simp only [Part.modify, F.get_set] at hQ ⊢
    rwa [F.keeps hk hs]

end Field

end

def levelField : Field Logging.set "level" String where
  get := (·.level)
  set a s := { s with level := a }
  read := (·.text?)
  elsewhere s a k v hk := by
    unfold Logging.set
    split <;> first | exact absurd rfl hk | exact setting_map rfl fun _ => rfl | rfl

def patternField : Field Logging.set "pattern" String where
  get := (·.pattern)
  set a s := { s with pattern := a }
  read := (·.text?)
  elsewhere s a k v hk := by
    unfold Logging.set
    split <;> first | exact absurd rfl hk | exact setting_map rfl fun _ => rfl | rfl

def pathField : Field FileSection.set "path" String where
  get := (·.path)
  set a s := { s with path := a }
  read := (·.text?)
  elsewhere s a k v hk := by
    unfold FileSection.set
    split <;> first | exact absurd rfl hk | exact setting_map rfl fun _ => rfl | rfl

def uriField : Field ServerSection.set "connection_uri" String where
  get := (·.connectionUri)
  set a s := { s with connectionUri := a }
  read := (·.text?)
  elsewhere s a k v hk := by
    unfold ServerSection.set
    split <;> first | exact absurd rfl hk | exact setting_map rfl fun _ => rfl | rfl

def destinationField : Field Topic.set "destination" String where
  get := (·.destination)
  set a s := { s with destination := a }
  read := (·.text?)
  elsewhere s a k v hk := by
    unfold Topic.set
    split <;> first | exact absurd rfl hk | exact setting_map rfl fun _ => rfl | rfl

def serviceField : Field Telemetry.set "service_name" String where
  get := (·.serviceName)
  set a s := { s with serviceName := a }
  read := (·.text?)
  elsewhere s a k v hk := by
    unfold Telemetry.set
    split <;> first | exact absurd rfl hk | exact setting_map rfl fun _ => rfl | rfl

def endpointField : Field Telemetry.set "otlp_endpoint" String where
  get := (·.otlpEndpoint)
  set a s := { s with otlpEndpoint := a }
  read := (·.text?)
  elsewhere s a k v hk := by
    unfold Telemetry.set
    split <;> first | exact absurd rfl hk | exact setting_map rfl fun _ => rfl | rfl

def loggingField : Field Settings.set "logging" Logging where
  get := (·.logging)
  set a s := { s with logging := a }
  read := (·.foldFields Logging.set {})
  elsewhere s a k v hk := by
    unfold Settings.set
    split <;> first | exact absurd rfl hk | exact setting_map rfl fun _ => rfl | rfl

def databaseField : Field Settings.set "database" (Option Database) where
  get := (·.database)
  set a s := { s with database := a }
  read := (·.foldFields Database.choose none)
  elsewhere s a k v hk := by
    unfold Settings.set
    split <;> first | exact absurd rfl hk | exact setting_map rfl fun _ => rfl | rfl

def storeField : Field Settings.set "store" Topic where
  get := (·.store)
  set a s := { s with store := a }
  read := (·.foldFields Topic.set {})
  elsewhere s a k v hk := by
    unfold Settings.set
    split <;> first | exact absurd rfl hk | exact setting_map rfl fun _ => rfl | rfl

def telemetryField : Field Settings.set "telemetry" Telemetry where
  get := (·.telemetry)
  set a s := { s with telemetry := a }
  read := (·.foldFields Telemetry.set {})
  elsewhere s a k v hk := by
    unfold Settings.set
    split <;> first | exact absurd rfl hk | exact setting_map rfl fun _ => rfl | rfl

/-- A database in a file at another path. -/
def Database.atPath (a : String) : Database → Database
  | sqlite _ walMode busyTimeoutMs => sqlite a walMode busyTimeoutMs
  | d => d

/-- A database on another server. -/
def Database.onServer (a : String) : Database → Database
  | postgres _ maxConnections => postgres a maxConnections
  | d => d

section

variable {σ τ : Type} {inner : σ → String → Value → Option σ} {step : τ → String → Value → Option τ}
  {k place kind : String} {x y : Value} {f : Frame Value} {a : String} {first : σ}

/-- A text takes the place of whatever is there. -/
theorem text_exchanges (F : Field inner k String) (hread : F.read = (·.text?)) (a : String) :
    Exchanges inner k x (.text a) (F.set a) (F.get · = a) := by
  refine F.exchanges (y := .text a) (f := fun _ => a) (Q := (· = a)) nofun fun s s' hs => ?_
  refine ⟨a, by rw [hread]; rfl, ?_, rfl⟩
  by_cases hx : x = .null
  · subst hx
    cases hs
    rfl
  · rw [setting_of_ne hx] at hs
    obtain ⟨b, -, rfl⟩ := Option.map_eq_some_iff.1 hs
    exact F.set_set a b s

/-- A section takes another text where one of its fields does. -/
theorem section_exchanges {g : σ → σ} {P : σ → Prop} (F : Field step place σ)
    (hread : F.read = (·.foldFields inner first)) (hf : f.key = k)
    (h : Exchanges inner k x y g P) :
    Exchanges step place (.struct (f.entries x)) (.struct (f.entries y)) (F.modify g)
      fun s => P (F.get s) := by
  refine F.exchanges nofun fun s s' hs => ?_
  obtain ⟨b, hb, rfl⟩ := Option.map_eq_some_iff.1 hs
  rw [hread] at hb
  obtain ⟨hy, hP⟩ := exchanged h hf hb
  exact ⟨g b, by rw [hread]; exact hy, by rw [Part.modify, F.get_set, F.set_set], hP⟩

theorem choose_none (h : x ≠ .null) :
    Database.choose none kind x = (Database.read? kind x).map some := by
  cases x <;> first | rfl | exact absurd rfl h

theorem choose_some {d : Database} (h : x ≠ .null) : Database.choose (some d) kind x = none := by
  cases x <;> first | rfl | exact absurd rfl h

theorem choose_refused {o : Option Database} (hx : x ≠ .null) (h : Database.read? kind x = none) :
    Database.choose o kind x = none := by
  cases o with
  | none => rw [choose_none hx, h, Option.map_none]
  | some d => exact choose_some hx

/-- A database is chosen with another text where one of its kind is read with it. -/
theorem choice_exchanges {g : Database → Database} {P : Database → Prop} (hx : x ≠ .null)
    (hy : y ≠ .null)
    (h : ∀ d, Database.read? kind x = some d → Database.read? kind y = some (g d) ∧ P (g d))
    (hother : ∀ k v d, k ≠ kind → Database.read? k v = some d → g d = d) :
    Exchanges Database.choose kind x y (Option.map g) fun o => ∃ d, o = some d ∧ P d where
  here o o' ho := by
    cases o with
    | some d => rw [choose_some hx] at ho; cases ho
    | none =>
      rw [choose_none hx] at ho
      obtain ⟨d, hd, rfl⟩ := Option.map_eq_some_iff.1 ho
      obtain ⟨hd, hP⟩ := h d hd
      rw [choose_none hy, hd]
      exact ⟨rfl, g d, rfl, hP⟩
  elsewhere o k v hk := by
    by_cases hv : v = .null
    · subst hv
      simp only [Database.choose]
      split <;> rfl
    · cases o with
      | some d => rw [Option.map_some, choose_some hv, choose_some hv, Option.map_none]
      | none =>
        rw [Option.map_none, choose_none hv]
        cases hd : Database.read? k v with
        | none => rfl
        | some d => simp [hother k v d hk hd]
  holds o o' k v hk ho hP := by
    -- one is chosen already, so that nothing but a null can follow
    obtain ⟨d, hd, hP⟩ := hP
    obtain ⟨e, rfl, rfl⟩ := Option.map_eq_some_iff.1 hd
    by_cases hv : v = .null
    · subst hv
      simp only [Database.choose] at ho
      split at ho
      · cases ho
        exact ⟨_, rfl, hP⟩
      · cases ho
    · rw [choose_some hv] at ho
      cases ho

/-- A database of another kind has no such text. -/
theorem read?_other {v : Value} {d : Database} (hd : Database.read? k v = some d) :
    (k ≠ "sqlite" → d.atPath a = d) ∧ (k ≠ "postgres" → d.onServer a = d) := by
  unfold Database.read? at hd
  split at hd
  · obtain ⟨fields, -, hd⟩ := Option.bind_eq_some_iff.1 hd
    cases fields with
    | nil =>
      cases hd
      exact ⟨fun _ => rfl, fun _ => rfl⟩
    | cons p fields => cases hd
  · obtain ⟨s, -, rfl⟩ := Option.map_eq_some_iff.1 hd
    exact ⟨fun h => absurd rfl h, fun _ => rfl⟩
  · obtain ⟨s, -, rfl⟩ := Option.map_eq_some_iff.1 hd
    exact ⟨fun _ => rfl, fun h => absurd rfl h⟩
  · cases hd

theorem path_exchanges (hf : f.key = "path") (a : String) :
    Exchanges Database.choose "sqlite" (.struct (f.entries x)) (.struct (f.entries (.text a)))
      (Option.map (.atPath a)) fun o => ∃ d, o = some d ∧ ∃ wal ms, d = .sqlite a wal ms :=
  choice_exchanges nofun nofun (fun d hd => by
    obtain ⟨s, hs, rfl⟩ := Option.map_eq_some_iff.1 hd
    obtain ⟨hs, hP⟩ := exchanged (text_exchanges pathField rfl a) hf hs
    exact ⟨Option.map_eq_some_iff.2 ⟨_, hs, rfl⟩, _, _, rfl⟩)
    fun k v d hk hd => (read?_other hd).1 hk

theorem connectionUri_exchanges (hf : f.key = "connection_uri") (a : String) :
    Exchanges Database.choose "postgres" (.struct (f.entries x)) (.struct (f.entries (.text a)))
      (Option.map (.onServer a)) fun o => ∃ d, o = some d ∧ ∃ n, d = .postgres a n :=
  choice_exchanges nofun nofun (fun d hd => by
    obtain ⟨s, hs, rfl⟩ := Option.map_eq_some_iff.1 hd
    obtain ⟨hs, hP⟩ := exchanged (text_exchanges uriField rfl a) hf hs
    exact ⟨Option.map_eq_some_iff.2 ⟨_, hs, rfl⟩, _, rfl⟩)
    fun k v d hk hd => (read?_other hd).2 hk

theorem path_refused (hy : y ≠ .null) (h : y.text? = none) (hf : f.key = "path") :
    Database.read? "sqlite" (.struct (f.entries y)) = none :=
  Option.map_eq_none_iff.2 (refused (pathField.refuses hy h) hf)

theorem connectionUri_refused (hy : y ≠ .null) (h : y.text? = none)
    (hf : f.key = "connection_uri") :
    Database.read? "postgres" (.struct (f.entries y)) = none :=
  Option.map_eq_none_iff.2 (refused (uriField.refuses hy h) hf)

end

end DurableTopic.Config

import DurableTopic.Repository.Server
/-! Clients that share a pool of connections, step by step: the others may move whenever a client talks
to the server or lets go of the pool. Main statements: what the repository does for one client, while nobody
else moves, is a series of such steps. -/
namespace DurableTopic.Repository.Server

/-- What a request gives, and the link that it leaves. -/
def Request.on {α : Type} (x : Request α) (l : Link) : Except Refusal α × Link := x.run.run l

namespace Link

/-- Asks the server for a connection. -/
def dial : Request Connection := do
  modify fun l => { l with attempts := l.attempts + 1 }
  let l ← get
  ExceptT.lift (tell (.connected l.address l.attempts))
  nextConnect
  return l.attempts

/-- Prepares one statement on a connection, which is closed if that fails. -/
def install (c : Connection) (p : Prepared) : Request Unit := do
  ExceptT.lift (tell (.prepared c p))
  match ← ExceptT.lift nextPrepare.run with
  | .ok () => return ()
  | .error e =>
    ExceptT.lift (tell (.disconnected c))
    throw e

end Link

/-- Starts a transaction on a connection. -/
def Handle.start (c : Connection) : Request Handle := do
  ExceptT.lift (Link.tell (.began c))
  Link.nextBegin
  return { connection := c }

/-- How far a client of the pool is. -/
inductive Stage where
  | away
  /-- It asks for a connection, or waits until it may ask again. -/
  | asking
  /-- It has a place for a connection, which it has to establish. -/
  | placed
  /-- It has connected, and some statements are left to prepare. -/
  | preparing (c : Connection) (left : List Prepared)
  /-- It could not establish a connection, and still has the place for it. -/
  | refused
  | holding (c : Connection)
  /-- It has a transaction on its connection. -/
  | working (t : Handle)

/-- What a move does to the pool, as far as its books go. -/
inductive Act where
  | handed (c : Connection)
  | placed
  | gaveBack
  | other
  deriving DecidableEq

/-- A client moves. It may use its transaction as it likes, and end it whenever it likes; a connection
without a transaction is released or gets a new one. -/
inductive Move : Link → Stage → Act → Link → Stage → Prop where
  | ask {l : Link} : Move l .away .other l .asking
  | gone {l : Link} (hp : l.pool = none) : Move l .asking .other l .away
  | wait {l : Link} {p q : Pool} (hp : l.pool = some p) (hr : p.request = (.wait, q)) :
      Move l .asking .other l .asking
  | reuse {l : Link} {p q : Pool} {c : Connection} (hp : l.pool = some p)
      (hr : p.request = (.reuse c, q)) :
      Move l .asking (.handed c) { l with pool := some q } (.holding c)
  | place {l : Link} {p q : Pool} (hp : l.pool = some p) (hr : p.request = (.place, q)) :
      Move l .asking .placed { l with pool := some q } .placed
  | connect {l l' : Link} {c : Connection} (h : Link.dial.on l = (.ok c, l')) :
      Move l .placed .other l' (.preparing c Prepared.all)
  | connectFails {l l' : Link} {e : Refusal} (h : Link.dial.on l = (.error e, l')) :
      Move l .placed .other l' .refused
  | prepare {l l' : Link} {c : Connection} {p : Prepared} {ps : List Prepared}
      (h : (Link.install c p).on l = (.ok (), l')) :
      Move l (.preparing c (p :: ps)) .other l' (.preparing c ps)
  | prepareFails {l l' : Link} {c : Connection} {p : Prepared} {ps : List Prepared} {e : Refusal}
      (h : (Link.install c p).on l = (.error e, l')) :
      Move l (.preparing c (p :: ps)) .other l' .refused
  | ready {l : Link} {c : Connection} : Move l (.preparing c []) (.handed c) l (.holding c)
  | giveBack {l : Link} : Move l .refused .gaveBack ((Link.onPool Pool.giveBack).run l).2 .away
  | start {l l' : Link} {c : Connection} {t : Handle} (h : (Handle.start c).on l = (.ok t, l')) :
      Move l (.holding c) .other l' (.working t)
  | startFails {l l' : Link} {c : Connection} {e : Refusal}
      (h : (Handle.start c).on l = (.error e, l')) : Move l (.holding c) .other l' (.holding c)
  | query {l l' : Link} {t : Handle} {q : Statement} {ps : List Parameter}
      {r : Except Refusal (List Cells)} (h : (Link.query t.connection q ps).on l = (r, l')) :
      Move l (.working t) .other l' (.working t)
  | commit {l l' : Link} {t t' : Handle} {r : Except Failure Unit}
      (h : t.commit.run l = ((r, t'), l')) : Move l (.working t) .other l' (.working t')
  | rollback {l l' : Link} {t t' : Handle} (h : t.rollback.run l = (t', l')) :
      Move l (.working t) .other l' (.working t')
  | finish {l l' : Link} {t t' : Handle} (h : t.rollback.run l = (t', l')) :
      Move l (.working t) .other l' (.holding t'.connection)
  | release {l : Link} {c : Connection} :
      Move l (.holding c) .other ((Link.release c).run l).2 .away

/-- Moves of one client, nobody else moving in between. -/
inductive Moves : Link → Stage → List Act → Link → Stage → Prop where
  | nil {l : Link} {st : Stage} : Moves l st [] l st
  | cons {l l' l'' : Link} {st st' st'' : Stage} {a : Act} {as : List Act} (h : Move l st a l' st')
      (hs : Moves l' st' as l'' st'') : Moves l st (a :: as) l'' st''

/-- A client that is not about to get a connection. -/
def Stage.outside : Stage → Bool
  | .away | .holding _ | .working _ => true
  | _ => false

/-- The clients of a pool. -/
structure Crowd where
  link : Link
  clients : List Stage := []

namespace Crowd

/-- One thing happens: a client moves, somebody becomes a client, the server changes its mind, or the pool
is dropped while no client is about to get a connection. -/
inductive Step : Crowd → Act → Crowd → Prop where
  | move {l l' : Link} {st st' : Stage} {a : Act} {before after : List Stage}
      (h : Move l st a l' st') : Step ⟨l, before ++ st :: after⟩ a ⟨l', before ++ st' :: after⟩
  | enter {l : Link} {cs : List Stage} : Step ⟨l, cs⟩ .other ⟨l, cs ++ [.away]⟩
  | foresee {l : Link} {cs : List Stage} (answers : Answers) :
      Step ⟨l, cs⟩ .other ⟨{ l with answers }, cs⟩
  | drop {l : Link} {cs : List Stage} (h : ∀ st ∈ cs, st.outside) :
      Step ⟨l, cs⟩ .other ⟨(Link.dropPool.run l).2, cs⟩

/-- Things that happen, from left to right. -/
inductive Run : Crowd → List Act → Crowd → Prop where
  | nil (s : Crowd) : Run s [] s
  | snoc {s s' s'' : Crowd} {as : List Act} {a : Act} (h : Run s as s') (ha : Step s' a s'') :
      Run s (as ++ [a]) s''

end Crowd

/-- Where a client is that has prepared statements on a connection. -/
def Stage.prepared (c : Connection) : Except Refusal Unit → Stage
  | .ok () => .preparing c []
  | .error _ => .refused

/-- Where a client is that was given a connection, or a place among those who wait, or was refused. -/
def Stage.acquired : Except Refusal (Option Connection) → Stage
  | .ok (some c) => .holding c
  | .ok none => .asking
  | .error _ => .away

/-- Where a client is that has tried to start a transaction. -/
def Stage.begun : Except Refusal (Option Handle) → Stage
  | .ok (some t) => .working t
  | .ok none => .asking
  | .error _ => .away

namespace Request

variable {α β : Type} {l : Link}

@[simp] theorem on_pure (a : α) : Request.on (pure a) l = (.ok a, l) := rfl

@[simp] theorem on_throw (e : Refusal) : Request.on (throw e : Request α) l = (.error e, l) := rfl

@[simp] theorem on_lift (x : Work α) :
    Request.on (ExceptT.lift x) l = (.ok (x.run l).1, (x.run l).2) := rfl

@[simp] theorem on_get : Request.on get l = (.ok l, l) := rfl

@[simp] theorem on_modify (f : Link → Link) : Request.on (modify f) l = (.ok (), f l) := rfl

theorem on_bind (x : Request α) (f : α → Request β) : Request.on (x >>= f) l =
    match x.on l with
    | (.ok a, l') => (f a).on l'
    | (.error e, l') => (.error e, l') := by
  simp only [Request.on, ExceptT.run_bind, StateT.run_bind]
  generalize x.run.run l = y
  rcases y with ⟨_ | _, _⟩ <;> rfl

theorem on_bind_ok {x : Request α} {f : α → Request β} {a : α} {l' : Link}
    (h : x.on l = (.ok a, l')) : Request.on (x >>= f) l = (f a).on l' := by
  rw [on_bind, h]

theorem on_bind_error {x : Request α} {f : α → Request β} {e : Refusal} {l' : Link}
    (h : x.on l = (.error e, l')) : Request.on (x >>= f) l = (.error e, l') := by
  rw [on_bind, h]

end Request

variable {l l' l'' : Link} {st st' st'' : Stage} {as bs : List Act} {a : Act} {c : Connection}

theorem moves_one (h : Move l st a l' st') : Moves l st [a] l' st' := .cons h .nil

theorem moves_trans (h : Moves l st as l' st') (h' : Moves l' st' bs l'' st'') :
    Moves l st (as ++ bs) l'' st'' := by
  induction h with
  | nil => exact h'
  | cons hm _ ih => exact .cons hm (ih h')

/-- While a client moves, the others may stay as they are. -/
theorem run_snoc_moves {s : Crowd} (before after : List Stage)
    (h : s.Run as ⟨l, before ++ st :: after⟩) (hs : Moves l st bs l' st') :
    s.Run (as ++ bs) ⟨l', before ++ st' :: after⟩ := by
  induction hs generalizing as with
  | nil => simpa using h
  | cons hm _ ih => simpa using ih (h.snoc (.move hm))

namespace Link

theorem prepare_cons (p : Prepared) (ps : List Prepared) :
    prepare c (p :: ps) = install c p >>= fun _ => prepare c ps := by
  rw [prepare, install, bind_assoc]
  congr 1
  funext _
  rw [bind_assoc]
  congr 1
  funext r
  cases r <;> rfl

theorem connect_eq : connect = dial >>= fun c => prepare c Prepared.all >>= fun _ => pure c := by
  simp [connect, dial]

/-- Statements are prepared one after the other, up to the first that fails. -/
theorem prepare_moves (ps : List Prepared) {r : Except Refusal Unit}
    (h : (prepare c ps).on l = (r, l')) :
    ∃ as, Moves l (.preparing c ps) as l' (.prepared c r) := by
  induction ps generalizing l with
  | nil =>
    cases h
    exact ⟨[], .nil⟩
  | cons p ps ih =>
    rw [prepare_cons, Request.on_bind] at h
    rcases hi : (install c p).on l with ⟨_ | _, l₁⟩
    · rw [hi] at h
      cases h
      exact ⟨_, moves_one (.prepareFails hi)⟩
    · rw [hi] at h
      obtain ⟨as, hs⟩ := ih h
      exact ⟨_, .cons (.prepare hi) hs⟩

theorem establish_on : establish.on l = match connect.on l with
    | (.ok c, l') => (.ok c, l')
    | (.error e, l') => (.error e, ((onPool Pool.giveBack).run l').2) := by
  simp only [Request.on, establish, ExceptT.run_mk, StateT.run_bind]
  generalize connect.run.run l = y
  rcases y with ⟨_ | _, _⟩ <;> rfl

theorem establish_moves {r : Except Refusal Connection} (h : establish.on l = (r, l')) :
    ∃ as, Moves l .placed as l' (.acquired (r.map some)) := by
  rw [establish_on] at h
  rcases hd : dial.on l with ⟨e | c, l₁⟩
  · rw [connect_eq, Request.on_bind_error hd] at h
    cases h
    exact ⟨_, .cons (.connectFails hd) (moves_one .giveBack)⟩
  rcases hp : (prepare c Prepared.all).on l₁ with ⟨e | ⟨⟩, l₂⟩
  · rw [connect_eq, Request.on_bind_ok hd, Request.on_bind_error hp] at h
    cases h
    obtain ⟨as, hs⟩ := prepare_moves _ hp
    exact ⟨_, .cons (.connect hd) (moves_trans hs (moves_one .giveBack))⟩
  · rw [connect_eq, Request.on_bind_ok hd, Request.on_bind_ok hp] at h
    cases h
    obtain ⟨as, hs⟩ := prepare_moves _ hp
    exact ⟨_, .cons (.connect hd) (moves_trans hs (moves_one .ready))⟩

/-- Who acquires a connection moves until it has one, has to wait or is refused. -/
theorem acquire_moves {r : Except Refusal (Option Connection)} (h : acquire.on l = (r, l')) :
    ∃ as, Moves l .asking as l' (.acquired r) := by
  rw [acquire, Request.on_bind_ok (Request.on_get (l := l))] at h
  rcases hp : l.pool with _ | p
  · rw [hp] at h
    cases h
    exact ⟨_, moves_one (.gone hp)⟩
  rcases hr : p.request with ⟨_ | _ | _, q⟩
  · simp only [hp, hr, Option.map_some] at h
    rw [Request.on_bind_ok (Request.on_modify _)] at h
    cases h
    exact ⟨_, moves_one (.reuse hp hr)⟩
  · simp only [hp, hr, Option.map_some] at h
    rw [Request.on_bind_ok (Request.on_modify _), map_eq_pure_bind] at h
    rcases he : establish.on { l with pool := some q } with ⟨e | c, l₁⟩
    · rw [Request.on_bind_error he] at h
      cases h
      obtain ⟨as, hs⟩ := establish_moves he
      exact ⟨_, .cons (.place hp hr) hs⟩
    · rw [Request.on_bind_ok he] at h
      cases h
      obtain ⟨as, hs⟩ := establish_moves he
      exact ⟨_, .cons (.place hp hr) hs⟩
  · simp only [hp, hr, Option.map_some] at h
    cases h
    exact ⟨_, moves_one (.wait hp hr)⟩

end Link

/-- What is asked of the server on the connection of a transaction, and nothing else. -/
def Request.Asks {α : Type} (t : Handle) (x : Request α) : Prop :=
  ∀ l, ∃ as, Moves l (.working t) as (x.on l).2 (.working t)

namespace Handle

variable {α β : Type} {t : Handle} {x : Request α}

theorem asks_pure (r : Except Refusal α) : Request.Asks t (ExceptT.mk (pure r)) :=
  fun _ => ⟨[], .nil⟩

theorem asks_query (q : Statement) (ps : List Parameter) :
    Request.Asks t (Link.query t.connection q ps) :=
  fun _ => ⟨_, moves_one (.query rfl)⟩

theorem asks_bind {f : α → Request β} (hx : x.Asks t) (hf : ∀ a, (f a).Asks t) :
    Request.Asks t (x >>= f) := by
  intro l
  obtain ⟨as, hs⟩ := hx l
  rw [Request.on_bind]
  rcases h : x.on l with ⟨e | a, l₁⟩
  · rw [h] at hs
    exact ⟨as, hs⟩
  · rw [h] at hs
    obtain ⟨bs, hs'⟩ := hf a l₁
    exact ⟨as ++ bs, moves_trans hs hs'⟩

theorem asks_map (f : α → β) (hx : x.Asks t) : Request.Asks t (f <$> x) := by
  rw [map_eq_pure_bind]
  exact asks_bind hx fun a => asks_pure (.ok (f a))

theorem asks_first {x : Request (List Cells)} (hx : x.Asks t) (read : Cells → Except Refusal α) :
    (first x read).Asks t := by
  refine asks_bind hx fun rows => ?_
  cases rows with
  | nil => exact asks_pure (.ok none)
  | cons cells _ => exact asks_map some (asks_pure (read cells))

theorem asks_single {x : Request (List Cells)} (hx : x.Asks t) (read : Cells → Except Refusal α) :
    (single x read).Asks t :=
  asks_bind hx fun _ => asks_pure _

theorem asks_append (r : Row) : (t.append r).Asks t :=
  asks_bind (asks_query _ _) fun _ => asks_bind (asks_single (asks_query _ _) _) fun sequence =>
    asks_bind (asks_query _ _) fun _ => asks_pure (.ok sequence)

/-- Work that leaves the link as a request does. -/
theorem work_moves {γ : Type} {w : Work γ} {l : Link} (hx : x.Asks t)
    (hw : (w.run l).2 = (x.on l).2) : ∃ as, Moves l (.working t) as (w.run l).2 (.working t) :=
  hw ▸ hx l

theorem raising_link (l : Link) : ((raising x).run l).2 = (x.on l).2 := rfl

theorem reporting_link {x : Request Unit} (l : Link) : ((reporting x).run l).2 = (x.on l).2 := by
  simp only [Request.on, reporting, StateT.run_bind]
  generalize x.run.run l = y
  rcases y with ⟨_ | _, _⟩ <;> rfl

theorem scanning_link {x : Request (List Cells)} (l : Link) :
    ((scanning x).run l).2 = (x.on l).2 := by
  simp only [Request.on, scanning, StateT.run_bind]
  generalize x.run.run l = y
  rcases y with ⟨_ | _, _⟩ <;> rfl

theorem append_link (r : Row) (l : Link) :
    ((t.perform (.append r)).run l).2 = ((t.append r).on l).2 := by
  simp only [Request.on, perform, StateT.run_bind]
  generalize (t.append r).run.run l = y
  rcases y with ⟨_ | _, _⟩ <;> rfl

/-- A call on a transaction only asks the server, and on the connection of the transaction. -/
theorem perform_moves (call : Call) (l : Link) :
    ∃ as, Moves l (.working t) as ((t.perform call).run l).2 (.working t) := by
  cases call with
  | append r => exact work_moves (asks_append r) (append_link r l)
  | resolve | get => exact work_moves (asks_first (asks_query _ _) _) (raising_link l)
  | persist | put | delete =>
    exact work_moves (asks_bind (asks_query _ _) fun _ => asks_pure (.ok ())) (reporting_link l)
  | load =>
    exact work_moves (asks_bind (asks_first (asks_query _ _) _) fun _ => asks_pure (.ok _))
      (raising_link l)
  | scanAfter d k above limit =>
    by_cases hl : limit = 0
    · refine ⟨[], ?_⟩
      rw [perform, if_pos hl]
      exact .nil
    · rw [perform, if_neg hl]
      exact work_moves (asks_query _ _) (scanning_link l)
  | scanAll => exact work_moves (asks_query _ _) (scanning_link l)
  | count => exact work_moves (asks_single (asks_query _ _) _) (raising_link l)
  | list =>
    exact work_moves (asks_bind (asks_query _ _) fun _ => asks_pure _) (raising_link l)

theorem begin_on (l : Link) : Handle.begin.on l = match Link.acquire.on l with
    | (.error e, l') => (.error e, l')
    | (.ok none, l') => (.ok none, l')
    | (.ok (some c), l') => match (start c).on l' with
      | (.ok t, l') => (.ok (some t), l')
      | (.error e, l') => (.error e, ((Link.release c).run l').2) := by
  rw [Handle.begin, Request.on_bind]
  rcases Link.acquire.on l with ⟨e | _ | c, l₁⟩
  · rfl
  · rfl
  · have hn : ∀ l, Link.nextBegin.run.run l = Link.nextBegin.on l := fun _ => rfl
    simp only [start, Request.on_bind, Request.on_lift, hn]
    generalize Link.nextBegin.on _ = y
    rcases y with ⟨_ | _, _⟩ <;> rfl

/-- Who begins a transaction moves until it has one, has to wait or is refused. -/
theorem begin_moves {r : Except Refusal (Option Handle)} (h : Handle.begin.on l = (r, l')) :
    ∃ as, Moves l .asking as l' (.begun r) := by
  rw [begin_on] at h
  rcases ha : Link.acquire.on l with ⟨e | _ | c, l₁⟩
  · rw [ha] at h
    cases h
    exact Link.acquire_moves ha
  · rw [ha] at h
    cases h
    exact Link.acquire_moves ha
  obtain ⟨as, hs⟩ := Link.acquire_moves ha
  rw [ha] at h
  rcases hb : (start c).on l₁ with ⟨e | t, l₂⟩
  · simp only [hb] at h
    cases h
    exact ⟨_, moves_trans hs (.cons (.startFails hb) (moves_one .release))⟩
  · simp only [hb] at h
    cases h
    exact ⟨_, moves_trans hs (moves_one (.start hb))⟩

theorem rollback_connection (l : Link) : (t.rollback.run l).1.connection = t.connection := by
  unfold rollback
  split <;> rfl

/-- Who gives a transaction up moves until its connection is released. -/
theorem close_moves (l : Link) : ∃ as, Moves l (.working t) as (t.close.run l).2 .away := by
  have hfinish : Move l (.working t) .other (t.rollback.run l).2
      (.holding (t.rollback.run l).1.connection) := .finish rfl
  rw [rollback_connection] at hfinish
  exact ⟨_, .cons hfinish (moves_one .release)⟩

end Handle

end DurableTopic.Repository.Server

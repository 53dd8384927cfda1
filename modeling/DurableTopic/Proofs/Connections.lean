import DurableTopic.Proofs.Clients
import Mathlib.Algebra.GroupWithZero.Nat
import Mathlib.Data.List.Nodup
/-! The books of a pool of connections. Main statement: whatever its clients do, a pool knows how many
connections there are, no two clients have the same one, and each is prepared when it is handed out. -/
namespace DurableTopic.Repository.Server

/-- How often a statement was prepared on a connection. -/
def Link.prepares (l : Link) (c : Connection) (p : Prepared) : Nat := l.sent.count (.prepared c p)

def Link.idle (l : Link) : List Connection := l.pool.elim [] (·.idle)

namespace Stage

/-- The connection that a client has. -/
def held : Stage → List Connection
  | .holding c => [c]
  | .working t => [t.connection]
  | _ => []

/-- The connection that a client prepares. -/
def made : Stage → List Connection
  | .preparing c _ => [c]
  | _ => []

/-- A client that has a place for a connection and no connection yet. -/
def establishes : Stage → Bool
  | .placed | .preparing .. | .refused => true
  | _ => false

/-- How many connections the pool counts for a client. -/
def weight (st : Stage) : Nat := st.held.length + st.establishes.toNat

end Stage

namespace Crowd

/-- The connections that the clients have. -/
def held (s : Crowd) : List Connection := s.clients.flatMap Stage.held

/-- How many connections are being established. -/
def establishing (s : Crowd) : Nat := s.clients.countP Stage.establishes

end Crowd

/-- A pool for at most so many connections knows how many there are: those that are idle, and those in
the places that were given out and not given back. -/
structure Counted (n : Nat) (past : List Act) (pool : Option Pool) (cs : List Stage) : Prop where
  limit : ∀ b, pool = some b → b.limit = max 1 n
  bounded : ∀ b, pool = some b → b.live ≤ b.limit
  balanced : ∀ b, pool = some b → b.live = b.idle.length + (cs.map Stage.weight).sum
  booked : ∀ b, pool = some b → b.live + past.count .gaveBack = past.count .placed

/-- In how many places a connection is that is ready. -/
def out (l : Link) (cs : List Stage) (c : Connection) : Nat :=
  l.idle.count c + (cs.flatMap Stage.held).count c

/-- How many clients prepare a connection. -/
def making (cs : List Stage) (c : Connection) : Nat := (cs.flatMap Stage.made).count c

/-- A connection is in one place at most. It is prepared first, by one client, and handed out when that is
done. -/
structure Orderly (past : List Act) (l : Link) (cs : List Stage) (c : Connection) : Prop where
  apart : out l cs c + making cs c ≤ 1
  known : 0 < out l cs c → .handed c ∈ past
  begun : ∀ left, .preparing c left ∈ cs → ∀ p, l.prepares c p + left.count p = 1
  ready : .handed c ∈ past → making cs c = 0 ∧ ∀ p, l.prepares c p = 1
  unused : l.attempts < c → making cs c = 0 ∧ .handed c ∉ past ∧ ∀ p, l.prepares c p = 0

/-- Nothing is said of the pool, and no statement is prepared. -/
structure Link.Keeps (l l' : Link) : Prop where
  pool : l'.pool = l.pool
  attempts : l'.attempts = l.attempts
  prepares : ∀ c p, l'.prepares c p = l.prepares c p

/-- The books of the pool are not touched, whatever is sent and answered. -/
def Request.Quiet {α : Type} (x : Request α) : Prop := ∀ l : Link, l.Keeps (x.on l).2

variable {n : Nat} {past as : List Act} {a : Act} {l l' l'' : Link} {st st' : Stage}
  {cs ds : List Stage} {c : Connection} {p : Prepared} {t t' : Handle}

theorem keeps_refl (l : Link) : l.Keeps l := ⟨rfl, rfl, fun _ _ => rfl⟩

theorem keeps_trans (h : l.Keeps l') (h' : l'.Keeps l'') : l.Keeps l'' :=
  ⟨h'.pool.trans h.pool, h'.attempts.trans h.attempts,
    fun c p => (h'.prepares c p).trans (h.prepares c p)⟩

theorem keeps_tell {e : Event} (he : ∀ c p, e ≠ .prepared c p) :
    l.Keeps ((Link.tell e).run l).2 := by
  refine ⟨rfl, rfl, fun c p => ?_⟩
  show (l.sent ++ [e]).count _ = _
  rw [List.count_append, List.count_singleton, if_neg (by simpa using he c p), Nat.add_zero]
  rfl

section

variable {α β : Type} {x : Request α}

theorem quiet_pure (r : Except Refusal α) : Request.Quiet (ExceptT.mk (pure r)) :=
  fun l => keeps_refl l

theorem quiet_get : Request.Quiet get := keeps_refl

theorem quiet_next (f : Answers → Except Refusal α × Answers) : Request.Quiet (Link.next f) :=
  fun _ => ⟨rfl, rfl, fun _ _ => rfl⟩

theorem quiet_tell {e : Event} (he : ∀ c p, e ≠ .prepared c p) :
    Request.Quiet (ExceptT.lift (Link.tell e)) :=
  fun _ => keeps_tell he

theorem quiet_bind {f : α → Request β} (hx : x.Quiet) (hf : ∀ a, (f a).Quiet) :
    Request.Quiet (x >>= f) := by
  intro l
  have hl := hx l
  rw [Request.on_bind]
  rcases h : x.on l with ⟨e | a, l₁⟩
  · rwa [h] at hl
  · rw [h] at hl
    exact keeps_trans hl (hf a l₁)

theorem keeps_of_quiet {r : Except Refusal α} (hx : x.Quiet) (h : x.on l = (r, l')) : l.Keeps l' := by
  have hl := hx l
  rwa [h] at hl

/-- Whether a request succeeds may be asked without failing. -/
theorem quiet_attempt (hx : x.Quiet) : Request.Quiet (ExceptT.lift x.run) := hx

end

theorem quiet_start (c : Connection) : (Handle.start c).Quiet :=
  quiet_bind (quiet_tell fun _ _ => Event.noConfusion) fun _ =>
    quiet_bind (quiet_next _) fun _ => quiet_pure (.ok _)

theorem quiet_query (c : Connection) (q : Statement) (ps : List Parameter) :
    (Link.query c q ps).Quiet :=
  quiet_bind (quiet_tell fun _ _ => Event.noConfusion) fun _ => quiet_next _

theorem keeps_commit {r : Except Failure Unit} (h : t.commit.run l = ((r, t'), l')) :
    l.Keeps l' ∧ t'.connection = t.connection := by
  let l₁ := ((Link.tell (.committed t.connection)).run l).2
  have hkeeps : l.Keeps (Link.nextCommit.on l₁).2 :=
    keeps_trans (keeps_tell fun _ _ => Event.noConfusion) (quiet_next _ _)
  have hcommit : t.commit.run l = match Link.nextCommit.on l₁ with
      | (.ok (), l') => ((.ok (), { t with committed := true, finished := true }), l')
      | (.error e, l') => ((.error e.failure, t), l') := by
    have ht : (Link.tell (.committed t.connection)).run l = (pure ((), l₁) : Id _) := rfl
    have hn : Link.nextCommit.run.run l₁ = Link.nextCommit.on l₁ := rfl
    simp only [Handle.commit, StateT.run_bind, ht, pure_bind, hn]
    generalize Link.nextCommit.on l₁ = y
    rcases y with ⟨_ | _, _⟩ <;> rfl
  rw [hcommit] at h
  rcases hn : Link.nextCommit.on l₁ with ⟨_ | _, l₂⟩ <;>
  · rw [hn] at h hkeeps
    cases h
    exact ⟨hkeeps, rfl⟩

theorem keeps_rollback (h : t.rollback.run l = (t', l')) :
    l.Keeps l' ∧ t'.connection = t.connection := by
  unfold Handle.rollback at h
  split at h
  · cases h
    exact ⟨keeps_refl l, rfl⟩
  · cases h
    exact ⟨keeps_tell fun _ _ => Event.noConfusion, rfl⟩

theorem dial_books {r : Except Refusal Connection} (h : Link.dial.on l = (r, l')) :
    l'.pool = l.pool ∧ l'.attempts = l.attempts + 1 ∧ ∀ c p, l'.prepares c p = l.prepares c p := by
  rw [Link.dial, Request.on_bind_ok (Request.on_modify _)] at h
  have hkeeps : Link.Keeps { l with attempts := l.attempts + 1 } l' := by
    refine keeps_of_quiet ?_ h
    exact quiet_bind quiet_get fun l => quiet_bind (quiet_tell fun _ _ => Event.noConfusion) fun _ =>
      quiet_bind (quiet_next _) fun _ => quiet_pure (.ok l.attempts)
  exact ⟨hkeeps.pool, hkeeps.attempts, hkeeps.prepares⟩

theorem number_of_dial (h : Link.dial.on l = (.ok c, l')) : c = l.attempts + 1 := by
  simp only [Link.dial, Request.on_bind, Request.on_modify, Request.on_get, Request.on_lift] at h
  split at h
  · cases h
    rfl
  · cases h

theorem connection_of_start (h : (Handle.start c).on l = (.ok t, l')) : t.connection = c := by
  simp only [Handle.start, Request.on_bind, Request.on_lift] at h
  split at h
  · cases h
    rfl
  · cases h

/-- A statement is prepared once more, and nothing else is said that matters. -/
theorem install_prepares {r : Except Refusal Unit} (h : (Link.install c p).on l = (r, l')) :
    l'.pool = l.pool ∧ l'.attempts = l.attempts ∧ ∀ d q,
      l'.prepares d q = l.prepares d q + if d = c ∧ q = p then 1 else 0 := by
  rw [Link.install, Request.on_bind_ok (Request.on_lift _)] at h
  have hkeeps : Link.Keeps ((Link.tell (.prepared c p)).run l).2 l' := by
    refine keeps_of_quiet ?_ h
    refine quiet_bind (quiet_attempt (quiet_next _)) fun r => ?_
    cases r with
    | ok _ => exact quiet_pure (.ok ())
    | error e =>
      exact quiet_bind (quiet_tell fun _ _ => Event.noConfusion) fun _ => quiet_pure (.error e)
  refine ⟨hkeeps.pool, hkeeps.attempts, fun d q => (hkeeps.prepares d q).trans ?_⟩
  show (l.sent ++ [Event.prepared c p]).count _ = _
  rw [List.count_append, List.count_singleton]
  congr 1
  by_cases hd : d = c ∧ q = p
  · obtain ⟨rfl, rfl⟩ := hd
    simp
  · rw [if_neg hd, if_neg fun he => ?_]
    cases eq_of_beq he
    exact hd ⟨rfl, rfl⟩

theorem request_reuse {b q : Pool} (h : b.request = (.reuse c, q)) :
    ∃ rest, b.idle = c :: rest ∧ q = { b with idle := rest } := by
  unfold Pool.request at h
  split at h
  · rename_i d rest hidle
    cases h
    exact ⟨rest, hidle, rfl⟩
  · split at h <;> cases h

theorem request_place {b q : Pool} (h : b.request = (.place, q)) :
    b.live < b.limit ∧ q = { b with live := b.live + 1 } := by
  unfold Pool.request at h
  split at h
  · cases h
  · split at h
    · cases h
      exact ⟨‹_›, rfl⟩
    · cases h

theorem idle_of_pool {b : Pool} (h : l.pool = some b) : l.idle = b.idle := by
  rw [Link.idle, h]
  rfl

/-- A connection returns to the pool, or is closed if there is none. -/
theorem release_cases (l : Link) (c : Connection) :
    (l.pool = none ∧ l.Keeps ((Link.release c).run l).2) ∨
      ∃ b, l.pool = some b ∧ ((Link.release c).run l).2 = { l with pool := some (b.release c) } := by
  have hr : (Link.release c).run l = if l.pool.isSome then (Link.onPool (·.release c)).run l
      else (Link.tell (.disconnected c)).run l := by
    rw [Link.release, StateT.run_bind]
    show (if l.pool.isSome then _ else _ : Work Unit).run l = _
    split <;> rfl
  rcases hp : l.pool with _ | b
  · rw [hr, hp]
    exact Or.inl ⟨rfl, keeps_tell fun _ _ => Event.noConfusion⟩
  · refine Or.inr ⟨b, rfl, ?_⟩
    rw [hr, hp]
    show { l with pool := l.pool.map _ } = _
    rw [hp]
    rfl

theorem counted_empty (address : String) (n : Nat) :
    Counted n [] (Link.ofAddress address n).pool [] where
  limit _ hp := by cases hp; rfl
  bounded _ hp := by cases hp; exact Nat.zero_le _
  balanced _ hp := by cases hp; rfl
  booked _ hp := by cases hp; rfl

theorem counted_none : Counted n past none cs := ⟨nofun, nofun, nofun, nofun⟩

theorem counted_perm {pool : Option Pool} (h : Counted n past pool cs) (hp : cs.Perm ds) :
    Counted n past pool ds :=
  { h with balanced := fun b hb => by rw [← (hp.map Stage.weight).sum_nat]; exact h.balanced b hb }

/-- A pool changes with what the client that moves has. -/
theorem counted_change {b q : Pool} (h : Counted n past (some b) (st :: cs))
    (hlimit : q.limit = b.limit) (hbound : q.live ≤ b.limit)
    (hlive : q.live + b.idle.length + st.weight = b.live + q.idle.length + st'.weight)
    (hbooks : q.live + [a].count .gaveBack = b.live + [a].count .placed) :
    Counted n (past ++ [a]) (some q) (st' :: cs) := by
  have hbalanced := h.balanced b rfl
  have hbooked := h.booked b rfl
  refine ⟨fun _ hq => ?_, fun _ hq => ?_, fun _ hq => ?_, fun _ hq => ?_⟩ <;> cases hq
  · exact hlimit.trans (h.limit b rfl)
  · exact hlimit ▸ hbound
  · simp only [List.map_cons, List.sum_cons] at hbalanced ⊢
    omega
  · simp only [List.count_append]
    omega

/-- A client moves on with what it has. -/
theorem counted_still (h : Counted n past l.pool (st :: cs)) (hp : l'.pool = l.pool)
    (hw : st'.weight = st.weight) (hg : [a].count .gaveBack = 0) (ha : [a].count .placed = 0) :
    Counted n (past ++ [a]) l'.pool (st' :: cs) := by
  rw [hp]
  rcases hpool : l.pool with _ | b
  · exact counted_none
  · rw [hpool] at h
    exact counted_change h rfl (h.bounded b rfl) (by omega) (by omega)

theorem counted_move (hm : Move l st a l' st') (h : Counted n past l.pool (st :: cs)) :
    Counted n (past ++ [a]) l'.pool (st' :: cs) := by
  have hstill : l'.pool = l.pool → st'.weight = st.weight → [a].count .gaveBack = 0 →
      [a].count .placed = 0 → Counted n (past ++ [a]) l'.pool (st' :: cs) := counted_still h
  cases hm with
  | ask | gone _ | wait _ _ | ready => exact hstill rfl rfl rfl rfl
  | connect hd | connectFails hd => exact hstill (dial_books hd).1 rfl rfl rfl
  | prepare hi | prepareFails hi => exact hstill (install_prepares hi).1 rfl rfl rfl
  | start hs | startFails hs => exact hstill (keeps_of_quiet (quiet_start _) hs).pool rfl rfl rfl
  | query hq => exact hstill (keeps_of_quiet (quiet_query _ _ _) hq).pool rfl rfl rfl
  | commit hc => exact hstill (keeps_commit hc).1.pool rfl rfl rfl
  | rollback hr | finish hr => exact hstill (keeps_rollback hr).1.pool rfl rfl rfl
  | @reuse b q c hp hr =>
    obtain ⟨rest, hidle, rfl⟩ := request_reuse hr
    rw [hp] at h
    refine counted_change h rfl (h.bounded b rfl) ?_ rfl
    rw [hidle]
    simp [Stage.weight, Stage.held, Stage.establishes]
    omega
  | @place b q hp hr =>
    obtain ⟨hroom, rfl⟩ := request_place hr
    rw [hp] at h
    refine counted_change h rfl hroom ?_ rfl
    show b.live + 1 + b.idle.length + 0 = b.live + b.idle.length + 1
    omega
  | giveBack =>
    show Counted n _ (l.pool.map Pool.giveBack) _
    rcases hp : l.pool with _ | b
    · exact counted_none
    · rw [hp] at h
      have hlive : b.live = _ := h.balanced b rfl
      have hrefused : Stage.weight .refused = 1 := rfl
      have haway : Stage.weight .away = 0 := rfl
      have hback : b.giveBack.live + 1 = b.live := by
        rw [List.map_cons, List.sum_cons] at hlive
        exact Nat.sub_add_cancel (by omega)
      have hbound := h.bounded b rfl
      refine counted_change h rfl (by omega) ?_ hback
      show b.giveBack.live + b.idle.length + _ = b.live + b.idle.length + _
      omega
  | @release c =>
    rcases release_cases l c with ⟨hp, hkeeps⟩ | ⟨b, hp, hl⟩
    · rw [hkeeps.pool, hp]
      exact counted_none
    · rw [hp] at h
      rw [hl]
      refine counted_change h rfl (h.bounded b rfl) ?_ rfl
      show b.live + b.idle.length + 1 = b.live + (b.idle.length + 1) + 0
      omega

theorem making_pos {left : List Prepared} (h : .preparing c left ∈ cs) : 0 < making cs c :=
  List.count_pos_iff.2 (List.mem_flatMap.2 ⟨_, h, List.mem_singleton_self c⟩)

theorem out_cons (l : Link) (st : Stage) (cs : List Stage) (c : Connection) :
    out l (st :: cs) c = st.held.count c + out l cs c := by
  rw [out, out, List.flatMap_cons, List.count_append]
  omega

theorem making_cons (st : Stage) (cs : List Stage) (c : Connection) :
    making (st :: cs) c = st.made.count c + making cs c := by
  rw [making, making, List.flatMap_cons, List.count_append]

theorem making_preparing (c : Connection) (left : List Prepared) (cs : List Stage) :
    making (.preparing c left :: cs) c = 1 + making cs c := by
  rw [making_cons]
  congr 1
  exact List.count_singleton_self

theorem orderly_mono {past' : List Act} (h : Orderly past l cs c) (hout : out l' ds c ≤ out l cs c)
    (hmade : making ds c ≤ making cs c)
    (hbegun : ∀ left, .preparing c left ∈ ds → .preparing c left ∈ cs)
    (ha : l.attempts ≤ l'.attempts) (hp : ∀ p, l'.prepares c p = l.prepares c p)
    (hpast : .handed c ∈ past' ↔ .handed c ∈ past) : Orderly past' l' ds c where
  apart := by have := h.apart; omega
  known hc := hpast.2 (h.known (by omega))
  begun left hc p := by rw [hp]; exact h.begun left (hbegun left hc) p
  ready hc := by
    obtain ⟨hno, hall⟩ := h.ready (hpast.1 hc)
    exact ⟨by omega, fun p => by rw [hp]; exact hall p⟩
  unused hc := by
    obtain ⟨hno, hnew, hall⟩ := h.unused (Nat.lt_of_le_of_lt ha hc)
    exact ⟨by omega, mt hpast.1 hnew, fun p => by rw [hp]; exact hall p⟩

/-- A client moves on with a connection that it has, or without it. -/
theorem orderly_change {past' : List Act} (h : Orderly past l (st :: cs) c)
    (hout : l'.idle.count c + st'.held.count c ≤ l.idle.count c + st.held.count c)
    (hmade : st'.made.count c = 0) (ha : l.attempts ≤ l'.attempts)
    (hp : ∀ p, l'.prepares c p = l.prepares c p) (hpast : .handed c ∈ past' ↔ .handed c ∈ past) :
    Orderly past' l' (st' :: cs) c := by
  refine orderly_mono h ?_ ?_ (fun left hc => ?_) ha hp hpast
  · simp only [out, List.flatMap_cons, List.count_append]
    omega
  · rw [making_cons, making_cons]
    omega
  · rcases List.mem_cons.1 hc with rfl | hc
    · simp [Stage.made] at hmade
    · exact List.mem_cons_of_mem _ hc

theorem orderly_still (h : Orderly past l (st :: cs) c) (hk : l.Keeps l') (hh : st'.held = st.held)
    (hm : st'.made = []) : Orderly (past ++ [.other]) l' (st' :: cs) c := by
  have hidle : l'.idle = l.idle := by rw [Link.idle, hk.pool, Link.idle]
  exact orderly_change h (Nat.le_of_eq (by rw [hidle, hh])) (by simp [hm]) (Nat.le_of_eq hk.attempts.symm)
    (hk.prepares c) (by simp)

theorem orderly_reuse {b q : Pool} (h : ∀ d, Orderly past l (.asking :: cs) d) (hp : l.pool = some b)
    (hr : b.request = (.reuse c, q)) (d : Connection) :
    Orderly (past ++ [.handed c]) { l with pool := some q } (.holding c :: cs) d := by
  obtain ⟨rest, hidle, rfl⟩ := request_reuse hr
  have hidle : l.idle = c :: rest := (idle_of_pool hp).trans hidle
  have hold : Act.handed c ∈ past :=
    (h c).known (Nat.lt_of_lt_of_le (List.count_pos_iff.2 (hidle ▸ List.mem_cons_self))
      (Nat.le_add_right ..))
  refine orderly_change (h d) ?_ rfl (Nat.le_refl _) (fun _ => rfl) ?_
  · show rest.count d + [c].count d ≤ l.idle.count d + 0
    rw [hidle]
    simp only [List.count_cons, List.count_nil]
    omega
  · simp only [List.mem_append, List.mem_singleton, Act.handed.injEq, or_iff_left_iff_imp]
    rintro rfl
    exact hold

theorem count_made {left : List Prepared} {d : Connection} (h : d ≠ c) :
    (Stage.made (.preparing c left)).count d = 0 :=
  List.count_eq_zero.2 fun hd => h (List.mem_singleton.1 hd)

theorem orderly_connect (h : ∀ d, Orderly past l (.placed :: cs) d) (hd : Link.dial.on l = (.ok c, l'))
    (d : Connection) : Orderly (past ++ [.other]) l' (.preparing c Prepared.all :: cs) d := by
  obtain ⟨hpool, hattempts, hprepares⟩ := dial_books hd
  have hidle : l'.idle = l.idle := by rw [Link.idle, hpool, Link.idle]
  obtain rfl := number_of_dial hd
  by_cases hnew : d = l.attempts + 1
  · subst hnew
    have hfree := h (l.attempts + 1)
    obtain ⟨hmaking, hpast, hnone⟩ := hfree.unused (Nat.lt_succ_self _)
    rw [making_cons] at hmaking
    have hout : out l (.placed :: cs) (l.attempts + 1) = 0 :=
      Nat.eq_zero_of_not_pos (mt hfree.known hpast)
    have hout' : out l' (.preparing (l.attempts + 1) Prepared.all :: cs) (l.attempts + 1) = 0 := by
      rw [← hout, out, out, hidle]
      rfl
    refine ⟨?_, fun hc => by omega, fun left hc p => ?_, fun hc => absurd hc (by simpa using hpast),
      fun hc => by omega⟩
    · rw [hout', making_preparing]
      omega
    · rcases List.mem_cons.1 hc with hc | hc
      · cases hc
        rw [hprepares, hnone p]
        cases p <;> rfl
      · have := making_pos hc
        omega
  · exact orderly_change (h d) (Nat.le_of_eq (by rw [hidle]; rfl)) (count_made hnew) (by omega)
      (hprepares d) (by simp)

/-- One of the statements that are left to prepare is prepared. -/
theorem orderly_install {ps : List Prepared} {r : Except Refusal Unit}
    (h : ∀ d, Orderly past l (.preparing c (p :: ps) :: cs) d)
    (hi : (Link.install c p).on l = (r, l')) (d : Connection) :
    Orderly (past ++ [.other]) l' (.preparing c ps :: cs) d := by
  obtain ⟨hpool, hattempts, hprepares⟩ := install_prepares hi
  have hidle : l'.idle = l.idle := by rw [Link.idle, hpool, Link.idle]
  by_cases hd : d = c
  · subst hd
    have hbusy := h d
    have hapart := hbusy.apart
    have hmaking := making_preparing d (p :: ps) cs
    have hmaking' := making_preparing d ps cs
    have hout : out l' (.preparing d ps :: cs) d = out l (.preparing d (p :: ps) :: cs) d := by
      rw [out, out, hidle]
      rfl
    refine ⟨by omega, fun hc => by omega, fun left hc q => ?_, fun hc => ?_, fun hc => ?_⟩
    · rcases List.mem_cons.1 hc with hc | hc
      · cases hc
        have hleft := hbusy.begun _ List.mem_cons_self q
        rw [List.count_cons] at hleft
        have hsame : (if p == q then 1 else 0) = if d = d ∧ q = p then 1 else 0 := by
          by_cases hq : q = p
          · simp [hq]
          · simp [hq, Ne.symm hq]
        rw [hprepares]
        omega
      · have := making_pos hc
        omega
    · have := (hbusy.ready (by simpa using hc)).1
      omega
    · have := (hbusy.unused (by omega)).1
      omega
  · refine orderly_change (h d) (Nat.le_of_eq (by rw [hidle]; rfl)) (count_made hd) (by omega)
      (fun q => ?_) (by simp)
    rw [hprepares, if_neg fun hc => hd hc.1, Nat.add_zero]

theorem orderly_ready (h : ∀ d, Orderly past l (.preparing c [] :: cs) d) (d : Connection) :
    Orderly (past ++ [.handed c]) l (.holding c :: cs) d := by
  by_cases hd : d = c
  · subst hd
    have hbusy := h d
    have hapart := hbusy.apart
    have hmaking := making_preparing d [] cs
    have hmaking' : making (.holding d :: cs) d = making cs d := by
      rw [making_cons]
      exact Nat.zero_add _
    have hout : out l (.holding d :: cs) d = 1 + out l (.preparing d [] :: cs) d := by
      rw [out_cons, out_cons, ← Nat.add_assoc]
      congr 1
      exact List.count_singleton_self
    refine ⟨by omega, fun _ => by simp, fun left hc => ?_, fun _ => ⟨by omega, fun p => ?_⟩,
      fun hc => ?_⟩
    · have := making_pos ((List.mem_cons.1 hc).resolve_left nofun)
      omega
    · exact hbusy.begun [] List.mem_cons_self p
    · have := (hbusy.unused hc).1
      omega
  · refine orderly_change (h d) ?_ rfl (Nat.le_refl _) (fun _ => rfl) (by simp [hd])
    exact Nat.le_of_eq (congrArg _ (List.count_eq_zero.2 fun hm => hd (List.mem_singleton.1 hm)))

theorem orderly_move (hm : Move l st a l' st') (h : ∀ c, Orderly past l (st :: cs) c) (c : Connection) :
    Orderly (past ++ [a]) l' (st' :: cs) c := by
  have hstill : a = .other → l.Keeps l' → st'.held = st.held → st'.made = [] →
      Orderly (past ++ [a]) l' (st' :: cs) c := by
    rintro rfl
    exact orderly_still (h c)
  cases hm with
  | ask | gone _ => exact hstill rfl (keeps_refl l) rfl rfl
  | wait _ _ => exact hstill rfl (keeps_refl l) rfl rfl
  | reuse hp hr => exact orderly_reuse h hp hr c
  | place hp hr =>
    obtain ⟨-, rfl⟩ := request_place hr
    refine orderly_change (h c) (Nat.le_of_eq ?_) rfl (Nat.le_refl _) (fun _ => rfl) (by simp)
    rw [idle_of_pool hp]
    rfl
  | connect hd => exact orderly_connect h hd c
  | connectFails hd =>
    obtain ⟨hpool, hattempts, hprepares⟩ := dial_books hd
    refine orderly_change (h c) (Nat.le_of_eq ?_) rfl (by omega) (hprepares c) (by simp)
    rw [Link.idle, hpool]
    rfl
  | prepare hi => exact orderly_install h hi c
  | prepareFails hi =>
    -- The failed statement counts as prepared, and then the connection is given up.
    have hi := orderly_install h hi c
    exact orderly_change hi (Nat.le_refl _) rfl (Nat.le_refl _) (fun _ => rfl) Iff.rfl
  | ready => exact orderly_ready h c
  | giveBack =>
    refine orderly_change (h c) (Nat.le_of_eq ?_) rfl (Nat.le_refl _) (fun _ => rfl) (by simp)
    show ((l.pool.map Pool.giveBack).elim [] (·.idle)).count c + 0 = l.idle.count c + 0
    rw [Link.idle]
    cases l.pool <;> rfl
  | start hs =>
    have := connection_of_start hs
    exact hstill rfl (keeps_of_quiet (quiet_start _) hs) (by simp [Stage.held, this]) rfl
  | startFails hs => exact hstill rfl (keeps_of_quiet (quiet_start _) hs) rfl rfl
  | query hq => exact hstill rfl (keeps_of_quiet (quiet_query _ _ _) hq) rfl rfl
  | commit hc =>
    obtain ⟨hk, hsame⟩ := keeps_commit hc
    exact hstill rfl hk (by simp [Stage.held, hsame]) rfl
  | rollback hr | finish hr =>
    obtain ⟨hk, hsame⟩ := keeps_rollback hr
    exact hstill rfl hk (by simp [Stage.held, hsame]) rfl
  | @release d =>
    rcases release_cases l d with ⟨hp, hkeeps⟩ | ⟨b, hp, hl⟩
    · refine orderly_change (h c) ?_ rfl (Nat.le_of_eq hkeeps.attempts.symm) (hkeeps.prepares c)
        (by simp)
      rw [Link.idle, hkeeps.pool]
      exact Nat.add_le_add_left (Nat.zero_le _) _
    · rw [hl]
      refine orderly_change (h c) (Nat.le_of_eq ?_) rfl (Nat.le_refl _) (fun _ => rfl) (by simp)
      rw [idle_of_pool hp]
      show (d :: b.idle).count c + 0 = b.idle.count c + [d].count c
      simp only [List.count_cons, List.count_nil]
      omega

theorem counted_other {pool : Option Pool} (h : Counted n past pool cs) :
    Counted n (past ++ [.other]) pool cs :=
  { h with booked := fun b hb => by simpa using h.booked b hb }

theorem orderly_perm (h : Orderly past l cs c) (hp : cs.Perm ds) : Orderly past l ds c := by
  refine orderly_mono h (Nat.le_of_eq ?_)
    (Nat.le_of_eq ((hp.flatMap_right Stage.made).count_eq c).symm) (fun _ hc => hp.mem_iff.2 hc)
    (Nat.le_refl _) (fun _ => rfl) Iff.rfl
  rw [out, out, (hp.flatMap_right Stage.held).count_eq]

theorem keeps_closed (idle : List Connection) (l : Link) :
    l.Keeps ((idle.forM fun c => Link.tell (.disconnected c)).run l).2 := by
  induction idle generalizing l with
  | nil => exact keeps_refl l
  | cons c idle ih => exact keeps_trans (keeps_tell fun _ _ => Event.noConfusion) (ih _)

theorem drop_keeps (l : Link) : Link.Keeps { l with pool := none } (Link.dropPool.run l).2 :=
  keeps_closed _ _

theorem sound_step {s s' : Crowd} (hs : s.Step a s') (hc : Counted n past s.link.pool s.clients)
    (ho : ∀ c, Orderly past s.link s.clients c) :
    Counted n (past ++ [a]) s'.link.pool s'.clients ∧
      ∀ c, Orderly (past ++ [a]) s'.link s'.clients c := by
  cases hs with
  | move hm =>
    have ho := orderly_move hm fun c => orderly_perm (ho c) List.perm_middle
    exact ⟨counted_perm (counted_move hm (counted_perm hc List.perm_middle)) List.perm_middle.symm,
      fun c => orderly_perm (ho c) List.perm_middle.symm⟩
  | @enter l cs =>
    refine ⟨?_, fun c => orderly_mono (ho c) ?_ ?_ (fun left hc => ?_) (Nat.le_refl _) (fun _ => rfl)
      (by simp)⟩
    · refine { counted_other hc with balanced := fun b hb => ?_ }
      simpa [Stage.weight, Stage.held, Stage.establishes] using hc.balanced b hb
    · simp [out, Stage.held]
    · simp [making, Stage.made]
    · simpa using hc
  | foresee answers =>
    exact ⟨counted_other hc, fun c => orderly_mono (ho c) (Nat.le_refl _) (Nat.le_refl _)
      (fun _ hc => hc) (Nat.le_refl _) (fun _ => rfl) (by simp)⟩
  | @drop l cs =>
    have hk := drop_keeps l
    refine ⟨hk.pool ▸ counted_none, fun c => orderly_mono (ho c) ?_ (Nat.le_refl _) (fun _ hc => hc)
      (Nat.le_of_eq hk.attempts.symm) (hk.prepares c) (by simp)⟩
    rw [out, Link.idle, hk.pool]
    exact Nat.add_le_add_right (Nat.zero_le _) _

theorem orderly_empty (address : String) (n : Nat) (c : Connection) :
    Orderly [] (.ofAddress address n) [] c where
  apart := Nat.zero_le 1
  known hc := absurd hc (Nat.lt_irrefl 0)
  begun _ hc := by cases hc
  ready hc := by cases hc
  unused _ := ⟨rfl, by simp, fun _ => rfl⟩

theorem sound_run {s : Crowd} {address : String} (h : Crowd.Run ⟨.ofAddress address n, []⟩ past s) :
    Counted n past s.link.pool s.clients ∧ ∀ c, Orderly past s.link s.clients c := by
  generalize hs : (⟨.ofAddress address n, []⟩ : Crowd) = s₀ at h
  induction h with
  | nil =>
    subst hs
    exact ⟨counted_empty address n, orderly_empty address n⟩
  | snoc _ ha ih => exact sound_step ha ih.1 ih.2

/-- Each client that counts has a connection or is establishing one. -/
theorem sum_weight (cs : List Stage) : (cs.map Stage.weight).sum =
    (cs.flatMap Stage.held).length + cs.countP Stage.establishes := by
  induction cs with
  | nil => rfl
  | cons st cs ih =>
    simp only [List.map_cons, List.sum_cons, ih, Stage.weight, List.flatMap_cons, List.length_append,
      List.countP_cons]
    cases st.establishes <;> simp <;> omega

theorem prepare_pool (ps : List Prepared) {r : Except Refusal Unit}
    (h : (Link.prepare c ps).on l = (r, l')) : l'.pool = l.pool := by
  induction ps generalizing l with
  | nil =>
    cases h
    rfl
  | cons p ps ih =>
    rw [Link.prepare_cons, Request.on_bind] at h
    rcases hi : (Link.install c p).on l with ⟨e | u, l₁⟩ <;> rw [hi] at h
    · cases h
      exact (install_prepares hi).1
    · exact (ih h).trans (install_prepares hi).1

theorem connect_pool {r : Except Refusal Connection} (h : Link.connect.on l = (r, l')) :
    l'.pool = l.pool := by
  rw [Link.connect_eq] at h
  rcases hd : Link.dial.on l with ⟨e | c, l₁⟩
  · rw [Request.on_bind_error hd] at h
    cases h
    exact (dial_books hd).1
  have hdial := (dial_books hd).1
  rcases hp : (Link.prepare c Prepared.all).on l₁ with ⟨e | u, l₂⟩
  · rw [Request.on_bind_ok hd, Request.on_bind_error hp] at h
    cases h
    exact (prepare_pool _ hp).trans hdial
  · rw [Request.on_bind_ok hd, Request.on_bind_ok hp] at h
    cases h
    exact (prepare_pool _ hp).trans hdial

/-- Who is refused a connection leaves the pool as it was. -/
theorem pool_of_refused {e : Refusal} (h : Link.acquire.on l = (.error e, l')) : l'.pool = l.pool := by
  rw [Link.acquire, Request.on_bind_ok (Request.on_get (l := l))] at h
  rcases hp : l.pool with _ | b
  · rw [hp] at h
    cases h
    exact hp
  rcases hr : b.request with ⟨_ | _ | _, q⟩ <;> simp only [hp, hr, Option.map_some] at h
  · rw [Request.on_bind_ok (Request.on_modify _)] at h
    cases h
  · obtain ⟨-, rfl⟩ := request_place hr
    rw [Request.on_bind_ok (Request.on_modify _), map_eq_pure_bind, Request.on_bind,
      Link.establish_on] at h
    rcases hc : Link.connect.on { l with pool := some { b with live := b.live + 1 } } with ⟨e | c, l₁⟩ <;>
      simp only [hc] at h <;> cases h
    show l₁.pool.map Pool.giveBack = _
    rw [connect_pool hc]
    rfl
  · cases h

/-- A pool knows how many connections are idle, in use or being established, and they are not more than
it may have. Each attempt that failed has given its place back, and left the pool as it was if nobody
moved meanwhile. No connection is with two clients, or idle while a client has it, and every connection
that is idle or was ever handed out was prepared for each statement once. -/
theorem connections_accounted {s : Crowd} {address : String}
    (h : Crowd.Run ⟨.ofAddress address n, []⟩ past s) :
    (∀ b, s.link.pool = some b → b.live = b.idle.length + s.held.length + s.establishing ∧
      b.live ≤ max 1 n ∧ b.live + past.count .gaveBack = past.count .placed) ∧
    (∀ e l', Link.acquire.on s.link = (.error e, l') → l'.pool = s.link.pool) ∧
    (s.link.idle ++ s.held).Nodup ∧
    ∀ c, .handed c ∈ past ∨ c ∈ s.link.idle ++ s.held →
      ∀ p, s.link.sent.count (.prepared c p) = 1 := by
  obtain ⟨hc, ho⟩ := sound_run h
  refine ⟨fun b hb => ⟨?_, hc.limit b hb ▸ hc.bounded b hb, hc.booked b hb⟩,
    fun _ _ => pool_of_refused, ?_, fun c hp p => ?_⟩
  · rw [hc.balanced b hb, sum_weight, ← Nat.add_assoc]
    rfl
  · refine List.nodup_iff_count_le_one.2 fun c => ?_
    have hapart : out s.link s.clients c + making s.clients c ≤ 1 := (ho c).apart
    rw [List.count_append]
    exact Nat.le_trans (Nat.le_add_right _ _) hapart
  · have hhanded : .handed c ∈ past := by
      refine hp.elim id fun hc => (ho c).known ?_
      have hpos := List.count_pos_iff.2 hc
      rwa [List.count_append] at hpos
    exact ((ho c).ready hhanded).2 p

/-- Two connections may be live, and the server refuses the second attempt to connect. -/
def untried : Link :=
  { Link.ofAddress "db" 2 with
    answers := { connects := [.ok (), .error ⟨.brokenConnection, "down"⟩] } }

def firstBegun : Link := (Handle.begin.on untried).2

def secondRefused : Link := (Handle.begin.on firstBegun).2

def secondBegun : Link := (Handle.begin.on secondRefused).2

/-- Both clients have a transaction, the second one at its second attempt. -/
def bothBegun : Crowd :=
  ⟨secondBegun, [.working { connection := 1 }, .working { connection := 3 }]⟩

theorem both_begun_accounted : ∃ past, Crowd.Run ⟨.ofAddress "db" 2, []⟩ past bothBegun ∧
    2 + past.count .gaveBack = past.count .placed ∧
    ∀ p, bothBegun.link.sent.count (.prepared 3 p) = 1 := by
  have hbegun : ∀ {l l' r}, (Handle.begin.on l).1 = r → (Handle.begin.on l).2 = l' →
      ∃ as, Moves l .away as l' (.begun r) := by
    intro l l' r hr hl
    obtain ⟨as, hs⟩ := Handle.begin_moves (Prod.ext hr hl)
    exact ⟨_, .cons .ask hs⟩
  obtain ⟨as, hfirst⟩ : ∃ as, Moves untried .away as firstBegun (.working { connection := 1 }) :=
    @hbegun _ _ (.ok (some { connection := 1 })) (by decide +kernel) (by rw [firstBegun])
  obtain ⟨bs, hrefused⟩ : ∃ as, Moves firstBegun .away as secondRefused .away :=
    @hbegun _ _ (.error ⟨.brokenConnection, "down"⟩) (by decide +kernel) (by rw [secondRefused])
  obtain ⟨cs, hsecond⟩ : ∃ as, Moves secondRefused .away as secondBegun (.working { connection := 3 }) :=
    @hbegun _ _ (.ok (some { connection := 3 })) (by decide +kernel) (by rw [secondBegun])
  have hstart : Crowd.Run ⟨.ofAddress "db" 2, []⟩ _ ⟨untried, [] ++ .away :: [.away]⟩ :=
    (((Crowd.Run.nil _).snoc .enter).snoc .enter).snoc (.foresee untried.answers)
  have hrun : Crowd.Run ⟨.ofAddress "db" 2, []⟩ _ bothBegun :=
    run_snoc_moves [.working { connection := 1 }] []
      (run_snoc_moves [.working { connection := 1 }] [] (run_snoc_moves [] [.away] hstart hfirst)
        hrefused) hsecond
  have hlive : bothBegun.link.pool = some { limit := 2, live := 2 } := by decide +kernel
  have hheld : 3 ∈ bothBegun.link.idle ++ bothBegun.held := by decide +kernel
  obtain ⟨hpool, -, -, hprepared⟩ := connections_accounted hrun
  obtain ⟨-, -, hbooked⟩ := hpool _ hlive
  exact ⟨_, hrun, hbooked, hprepared 3 (Or.inr hheld)⟩

end DurableTopic.Repository.Server

import DurableTopic.Proofs.Answers
import DurableTopic.Proofs.Histories
/-! Operations that ask alike: the same things in the same order, except for what they only tell and for
the names of the slots that they lease. Every call, made twice, asks alike as long as it is answered
alike. -/
namespace DurableTopic

/-- The families of failure that a caller can tell apart. -/
inductive Failure.Family where
  | store | codec | invalidArgument | listener | object | logic | runtime
  deriving Repr, DecidableEq

def Failure.family : Failure → Family
  | store .. => .store
  | codec _ => .codec
  | invalidArgument _ => .invalidArgument
  | listener (.exception _) => .listener
  | listener .object => .object
  | logic _ => .logic
  | runtime _ => .runtime

theorem Failure.isException_family {f g : Failure} (h : f.family = g.family) :
    f.isException = g.isException := by
  have hobject : ∀ f : Failure, f.isException = true ↔ f.family ≠ .object := by
    rintro (_ | _ | _ | (_ | _) | _ | _) <;> simp [isException, family]
  rw [Bool.eq_iff_iff, hobject, hobject, h]

theorem Failure.isOwn_family {f g : Failure} (h : f.family = g.family) : f.isOwn = g.isOwn := by
  have hown : ∀ f : Failure, f.isOwn = true ↔
      f.family ≠ .listener ∧ f.family ≠ .logic ∧ f.family ≠ .runtime := by
    rintro (_ | _ | _ | (_ | _) | _ | _) <;> simp [isOwn, family]
  rw [Bool.eq_iff_iff, hown, hown, h]

theorem Failure.family_inContext {f g : Failure} {c c' : String} (h : f.family = g.family) :
    (f.inContext c).family = (g.inContext c').family := by
  unfold inContext
  rw [isOwn_family h]
  split
  · exact h
  · rfl

/-- Two results of one kind: both are there and are related, or both fail in one family. -/
def SameEnd {α β : Type} (R : α → β → Prop) : Except Failure α → Except Failure β → Prop
  | .ok a, .ok b => R a b
  | .error f, .error g => f.family = g.family
  | _, _ => False

theorem sameEnd_refl {α : Type} {a : Except Failure α} : SameEnd Eq a a := by
  cases a <;> rfl

namespace Repository

/-- How many messages a call may store. -/
def Call.adds : Call → Nat
  | append _ => 1
  | _ => 0

/-- Two answers to a call that say the same. A refused message may be refused in other words, and of
the records only those of some subscribers are looked at. -/
def Call.Agree (seen : SubscriberKey → Prop) : (c : Call) → c.Reply → c.Reply → Prop
  | .append _, a, b => ∃ x y, a = .ok x ∧ b = .ok y ∧
    (x = y ∨ x.status.isOk = false ∧ y.status.isOk = false)
  | .list _, a, b => ∃ xs ys, a = .ok xs ∧ b = .ok ys ∧ ∀ x, seen x.key → (x ∈ xs ↔ x ∈ ys)
  | .resolve .., a, b | .persist .., a, b | .load .., a, b | .scanAfter .., a, b
  | .scanAll .., a, b | .count .., a, b | .put .., a, b | .get .., a, b | .delete .., a, b => a = b

end Repository
namespace Store

open Repository (Call)

/-- What two operations may ask for: some calls, the cursors of some subscribers, and the records of
some. -/
structure Guide where
  asks : Call → Prop
  keys : SubscriberKey → Prop
  seen : SubscriberKey → Prop

/-- Where two operations stand: their transactions, the slots that they lease, and how many messages
they may still store. -/
structure Turn where
  phase : Phase := .closed
  lease : Option (Nat × Nat) := none
  adds : Nat := 0

/-- Two operations ask alike as long as nothing hinders the repository, and end in related ways. -/
inductive Operation.Alike {α β : Type} (G : Guide) (Q : Turn → α → β → Prop) :
    Turn → Operation α → Operation β → Prop where
  | done {s : Turn} {a : α} {b : β} (h : Q s a b) : Alike G Q s (.done a) (.done b)
  | told {s : Turn} {e e' : Effect} {next : e.Reply → Operation α}
      {next' : e'.Reply → Operation β} (he : e.isTold) (he' : e'.isTold)
      (h : ∀ a a', Alike G Q s (next a) (next' a')) :
      Alike G Q s (.perform e next) (.perform e' next')
  | begin {s : Turn} {next : Effect.begin.Reply → Operation α}
      {next' : Effect.begin.Reply → Operation β} (hs : s.phase = .closed)
      (h : Alike G Q { s with phase := .active } (next (.ok ())) (next' (.ok ()))) :
      Alike G Q s (.perform .begin next) (.perform .begin next')
  | call {s : Turn} {c : Call} {next : c.Reply → Operation α} {next' : c.Reply → Operation β}
      (hs : s.phase = .active) (hc : G.asks c) (hn : c.adds ≤ s.adds)
      (h : ∀ a a', c.Agree G.seen a a' →
        Alike G Q { s with adds := s.adds - c.adds } (next a) (next' a')) :
      Alike G Q s (.perform (.call c) next) (.perform (.call c) next')
  | commit {s : Turn} {next : Effect.commit.Reply → Operation α}
      {next' : Effect.commit.Reply → Operation β} (hs : s.phase = .active)
      (h : Alike G Q { s with phase := .ended } (next (.ok ())) (next' (.ok ()))) :
      Alike G Q s (.perform .commit next) (.perform .commit next')
  | close {s : Turn} {next : Unit → Operation α} {next' : Unit → Operation β}
      (hs : s.phase ≠ .closed)
      (h : Alike G Q { s with phase := .closed } (next ()) (next' ())) :
      Alike G Q s (.perform .close next) (.perform .close next')
  | acquire {s : Turn} {k : SubscriberKey} {next : Lease → Operation α}
      {next' : Lease → Operation β} (hs : s.lease = none) (hk : G.keys k)
      (h : ∀ i i' w, Alike G Q { s with lease := some (i, i') } (next ⟨i, w⟩) (next' ⟨i', w⟩)) :
      Alike G Q s (.perform (.acquire k) next) (.perform (.acquire k) next')
  | keep {s : Turn} {i i' : Nat} {w : Watermark} {next : Unit → Operation α}
      {next' : Unit → Operation β} (hs : s.lease = some (i, i'))
      (h : Alike G Q s (next ()) (next' ())) :
      Alike G Q s (.perform (.keep i w) next) (.perform (.keep i' w) next')
  | release {s : Turn} {i i' : Nat} {next : Unit → Operation α} {next' : Unit → Operation β}
      (hs : s.lease = some (i, i'))
      (h : Alike G Q { s with lease := none } (next ()) (next' ())) :
      Alike G Q s (.perform (.release i) next) (.perform (.release i') next')
  | reset {s : Turn} {k : SubscriberKey} {next : Unit → Operation α} {next' : Unit → Operation β}
      (hk : G.keys k) (h : Alike G Q s (next ()) (next' ())) :
      Alike G Q s (.perform (.reset k) next) (.perform (.reset k) next')
  | evict {s : Turn} {k : SubscriberKey} {next : Unit → Operation α} {next' : Unit → Operation β}
      (hk : G.keys k) (h : Alike G Q s (next ()) (next' ())) :
      Alike G Q s (.perform (.evict k) next) (.perform (.evict k) next')
  | peek {s : Turn} {k : SubscriberKey} {next : Option Watermark → Operation α}
      {next' : Option Watermark → Operation β} (hk : G.keys k)
      (h : ∀ w, Alike G Q s (next w) (next' w)) :
      Alike G Q s (.perform (.peek k) next) (.perform (.peek k) next')
  | listen {s : Turn} {e : Effect} {next : e.Reply → Operation α} {next' : e.Reply → Operation β}
      (he : e.isCallback) (hs : s.phase = .closed) (h : ∀ a, Alike G Q s (next a) (next' a)) :
      Alike G Q s (.perform e next) (.perform e next')

/-- The same for operations that may fail: they end outside or inside a transaction, with some lease,
and in the same kind of result. -/
def Op.Alike {α β : Type} (G : Guide) (p : Phase) (l : Option (Nat × Nat)) (R : α → β → Prop)
    (s : Turn) (x : Op α) (y : Op β) : Prop :=
  Operation.Alike G (fun s a b => s.phase = p ∧ s.lease = l ∧ SameEnd R a b) s x.run y.run

section

variable {α β γ δ : Type} {G : Guide} {s : Turn}

theorem Operation.alike_mono {Q Q' : Turn → α → β → Prop} {x : Operation α} {y : Operation β}
    (h : x.Alike G Q s y) (hq : ∀ s a b, Q s a b → Q' s a b) : x.Alike G Q' s y := by
  induction h with
  | done h => exact .done (hq _ _ _ h)
  | told he he' _ ih => exact .told he he' fun a a' => ih a a'
  | begin hs _ ih => exact .begin hs ih
  | call hs hc hn _ ih => exact .call hs hc hn fun a a' ha => ih a a' ha
  | commit hs _ ih => exact .commit hs ih
  | close hs _ ih => exact .close hs ih
  | acquire hs hk _ ih => exact .acquire hs hk fun i i' w => ih i i' w
  | keep hs _ ih => exact .keep hs ih
  | release hs _ ih => exact .release hs ih
  | reset hk _ ih => exact .reset hk ih
  | evict hk _ ih => exact .evict hk ih
  | peek hk _ ih => exact .peek hk fun w => ih w
  | listen he hs _ ih => exact .listen he hs fun a => ih a

theorem Operation.alike_bind {P : Turn → α → β → Prop} {Q : Turn → γ → δ → Prop} {x : Operation α}
    {y : Operation β} {f : α → Operation γ} {g : β → Operation δ} (h : x.Alike G P s y)
    (hf : ∀ s a b, P s a b → (f a).Alike G Q s (g b)) : (x.bind f).Alike G Q s (y.bind g) := by
  induction h with
  | done h => exact hf _ _ _ h
  | told he he' _ ih => exact .told he he' fun a a' => ih a a'
  | begin hs _ ih => exact .begin hs ih
  | call hs hc hn _ ih => exact .call hs hc hn fun a a' ha => ih a a' ha
  | commit hs _ ih => exact .commit hs ih
  | close hs _ ih => exact .close hs ih
  | acquire hs hk _ ih => exact .acquire hs hk fun i i' w => ih i i' w
  | keep hs _ ih => exact .keep hs ih
  | release hs _ ih => exact .release hs ih
  | reset hk _ ih => exact .reset hk ih
  | evict hk _ ih => exact .evict hk ih
  | peek hk _ ih => exact .peek hk fun w => ih w
  | listen he hs _ ih => exact .listen he hs fun a => ih a

namespace Op

variable {p : Phase} {l : Option (Nat × Nat)} {R : α → β → Prop} {S : γ → δ → Prop} {x : Op α}
  {y : Op β}

theorem alike_bind {f : α → Op γ} {g : β → Op δ} (h : x.Alike G p l R s y)
    (hf : ∀ s a b, s.phase = p → s.lease = l → R a b → (f a).Alike G p l S s (g b)) :
    (x >>= f).Alike G p l S s (y >>= g) := by
  refine Operation.alike_bind h ?_
  rintro s (e | a) (e' | b) ⟨hp, hl, hr⟩
  · exact .done ⟨hp, hl, hr⟩
  · exact hr.elim
  · exact hr.elim
  · exact hf s a b hp hl hr

/-- What is attempted does not fail, and what follows may use how it ended. -/
theorem alike_attempt {P : Turn → Except Failure α → Except Failure β → Prop}
    {f : Except Failure α → Op γ} {g : Except Failure β → Op δ}
    (h : Operation.Alike G P s x.run y.run)
    (hf : ∀ s a b, P s a b → (f a).Alike G p l S s (g b)) :
    (attempt x >>= f).Alike G p l S s (attempt y >>= g) := by
  refine Operation.alike_bind (P := fun s a b => ∃ a' b', a = .ok a' ∧ b = .ok b' ∧ P s a' b')
    (Operation.alike_bind h fun _ a b h => .done ⟨a, b, rfl, rfl, h⟩) ?_
  rintro s _ _ ⟨a, b, rfl, rfl, h⟩
  exact hf s a b h

theorem alike_inContext {c c' : String} (h : x.Alike G p l R s y) :
    (inContext c x).Alike G p l R s (inContext c' y) := by
  refine Operation.alike_bind h ?_
  rintro s (e | a) (e' | b) ⟨hp, hl, hr⟩
  · exact .done ⟨hp, hl, Failure.family_inContext hr⟩
  · exact hr.elim
  · exact hr.elim
  · exact .done ⟨hp, hl, hr⟩

theorem alike_ofExcept {a : Except Failure α} {b : Except Failure β} (hp : s.phase = p)
    (hl : s.lease = l) (h : SameEnd R a b) : (ofExcept a).Alike G p l R s (ofExcept b) := by
  cases a <;> cases b <;> exact .done ⟨hp, hl, h⟩

theorem alike_pure {a : α} {b : β} (hp : s.phase = p) (hl : s.lease = l) (h : R a b) :
    (pure a : Op α).Alike G p l R s (pure b : Op β) := .done ⟨hp, hl, h⟩

theorem alike_throw {f g : Failure} (hp : s.phase = p) (hl : s.lease = l)
    (h : f.family = g.family) : (throw f : Op α).Alike G p l R s (throw g : Op β) := .done ⟨hp, hl, h⟩

/-- A check of the arguments gives the same twice. -/
theorem alike_check {v : Op Unit} {f : Unit → Op α} {g : Unit → Op β}
    (hv : v = pure () ∨ ∃ e, v = throw e) (hp : s.phase = p) (hl : s.lease = l)
    (h : v = pure () → (f ()).Alike G p l R s (g ())) :
    (v >>= f).Alike G p l R s (v >>= g) := by
  rcases hv with rfl | ⟨e, rfl⟩
  · exact h rfl
  · exact alike_throw (f := e) hp hl rfl

theorem alike_told {e e' : Effect} {f : e.Reply → Op α} {g : e'.Reply → Op β} (he : e.isTold)
    (he' : e'.isTold) (h : ∀ a a', (f a).Alike G p l R s (g a')) :
    (ask e >>= f).Alike G p l R s (ask e' >>= g) := .told he he' h

theorem alike_log {v v' : Log.Level} {t t' : String} {fs fs' : List Log.Field} (hp : s.phase = p)
    (hl : s.lease = l) : (log v t fs).Alike G p l Eq s (log v' t' fs') :=
  .told rfl rfl fun _ _ => .done ⟨hp, hl, rfl⟩

theorem alike_acquire {k : SubscriberKey} {f : Lease → Op α} {g : Lease → Op β}
    (hs : s.lease = none) (hk : G.keys k)
    (h : ∀ i i' w, (f ⟨i, w⟩).Alike G p l R { s with lease := some (i, i') } (g ⟨i', w⟩)) :
    (ask (.acquire k) >>= f).Alike G p l R s (ask (.acquire k) >>= g) := .acquire hs hk h

theorem alike_keep {i i' : Nat} {w : Watermark} {f : Unit → Op α} {g : Unit → Op β}
    (hs : s.lease = some (i, i')) (h : (f ()).Alike G p l R s (g ())) :
    (ask (.keep i w) >>= f).Alike G p l R s (ask (.keep i' w) >>= g) := .keep hs h

theorem alike_release {i i' : Nat} {f : Unit → Op α} {g : Unit → Op β}
    (hs : s.lease = some (i, i')) (h : (f ()).Alike G p l R { s with lease := none } (g ())) :
    (ask (.release i) >>= f).Alike G p l R s (ask (.release i') >>= g) := .release hs h

theorem alike_begin {f : Unit → Op α} {g : Unit → Op β} (hs : s.phase = .closed)
    (h : (f ()).Alike G p l R { s with phase := .active } (g ())) :
    (begin >>= f).Alike G p l R s (begin >>= g) := .begin hs h

theorem alike_close {f : Unit → Op α} {g : Unit → Op β} (hs : s.phase ≠ .closed)
    (h : (f ()).Alike G p l R { s with phase := .closed } (g ())) :
    (ask .close >>= f).Alike G p l R s (ask .close >>= g) := .close hs h

theorem alike_evict {k : SubscriberKey} {f : Unit → Op α} {g : Unit → Op β} (hk : G.keys k)
    (h : (f ()).Alike G p l R s (g ())) :
    (ask (.evict k) >>= f).Alike G p l R s (ask (.evict k) >>= g) := .evict hk h

theorem alike_reset {k : SubscriberKey} {f : Unit → Op α} {g : Unit → Op β} (hk : G.keys k)
    (h : (f ()).Alike G p l R s (g ())) :
    (ask (.reset k) >>= f).Alike G p l R s (ask (.reset k) >>= g) := .reset hk h

theorem alike_asked {c : Call} {f : c.Reply → Op α} {g : c.Reply → Op β} (hs : s.phase = .active)
    (hc : G.asks c) (hn : c.adds ≤ s.adds) (h : ∀ a a', c.Agree G.seen a a' →
      (f a).Alike G p l R { s with adds := s.adds - c.adds } (g a')) :
    (ask (.call c) >>= f).Alike G p l R s (ask (.call c) >>= g) := .call hs hc hn h

theorem alike_attemptBegin {f : Except Failure Unit → Op α} {g : Except Failure Unit → Op β}
    (hs : s.phase = .closed)
    (h : (f (.ok ())).Alike G p l R { s with phase := .active } (g (.ok ()))) :
    (attempt begin >>= f).Alike G p l R s (attempt begin >>= g) := .begin hs h

/-- Bodies that ask alike inside a transaction make transactions that do so. -/
theorem alike_inTransaction (hs : s.phase = .closed)
    (h : x.Alike G .active l R { s with phase := .active } y) :
    (inTransaction x).Alike G .closed l R s (inTransaction y) := by
  refine alike_begin hs (alike_attempt (P := fun s a b => s.phase ≠ Phase.closed ∧ s.lease = l ∧
    SameEnd R a b) (Operation.alike_bind h ?_) ?_)
  · rintro s (f | a) (g | b) ⟨hp, hl, hr⟩
    · exact .done ⟨by simp [hp], hl, hr⟩
    · exact hr.elim
    · exact hr.elim
    · exact .commit hp (.done ⟨nofun, hl, hr⟩)
  · rintro s a b ⟨hp, hl, hr⟩
    exact alike_close hp (alike_ofExcept rfl hl hr)

theorem alike_transacted {c : String} (hs : s.phase = .closed)
    (h : x.Alike G .active l R { s with phase := .active } y) :
    (inContext c (inTransaction x)).Alike G .closed l R s (inContext c (inTransaction y)) :=
  alike_inContext (alike_inTransaction hs h)

/-- What is told of a failure does not count. -/
theorem alike_report {operation d : String} {key : Option SubscriberKey}
    {span span' : Telemetry.Span} {f g : Failure} (hp : s.phase = p) (hl : s.lease = l)
    (h : f.family = g.family) : (report operation d key span f).Alike G p l Eq s
      (report operation d key span' g) := by
  unfold report
  rw [Failure.isException_family h]
  split
  · exact alike_told rfl rfl fun _ _ => alike_told rfl rfl fun _ _ => alike_told rfl rfl fun _ _ =>
      alike_pure hp hl rfl
  · exact alike_pure hp hl rfl

theorem alike_observed {operation d : String} {key : Option SubscriberKey}
    (h : x.Alike G p l R s y) :
    (observed operation d key x).Alike G p l R s (observed operation d key y) := by
  refine alike_told rfl rfl fun span span' => alike_attempt h ?_
  rintro s (f | a) (g | b) ⟨hp, hl, hr⟩
  · refine alike_bind (R := Eq) (alike_report hp hl hr) ?_
    rintro s _ _ hp hl -
    exact alike_told rfl rfl fun _ _ => alike_throw hp hl hr
  · exact hr.elim
  · exact hr.elim
  · exact alike_told rfl rfl fun _ _ => alike_told rfl rfl fun _ _ => alike_pure hp hl hr

end Op

/-- The repository calls that a call makes. -/
def Request.Makes (d : String) : Request → Call → Prop
  | publish m, c => c = .append (rowOf d m) ∧ m.identity.value ≠ ""
  | acknowledge k i _, c => c = .resolve d i ∨ ∃ w, c = .persist d k w
  | recoverNext k limit _, c => c = .load d k ∨ ∃ w, c = .scanAfter d k w limit
  | recoverAll k _, c => c = .scanAll d k
  | subscribe x b, c => c = .put ⟨d, x.key, x.selector, b, .start⟩ b
  | lookup k, c => c = .get d k
  | subscriptions, c => c = .list d
  | unsubscribe k, c => c = .delete d k
  | messageCount k, c => c = .count d k
  | resetBatching _, _ | cachedWatermark _, _ => False

theorem Request.makes_destination {d : String} {r : Request} {c : Call} (h : r.Makes d c) :
    c.destination = d := by
  cases r <;> simp only [Makes] at h
  case acknowledge => rcases h with rfl | ⟨w, rfl⟩ <;> rfl
  case recoverNext => rcases h with rfl | ⟨w, rfl⟩ <;> rfl
  case publish => obtain ⟨rfl, -⟩ := h; rfl
  all_goals subst h; rfl

theorem Request.makes_named {d : String} {r : Request} {c : Call} (h : r.Makes d c) : c.Named := by
  cases r <;> simp only [Makes] at h
  case acknowledge => rcases h with rfl | ⟨w, rfl⟩ <;> trivial
  case recoverNext => rcases h with rfl | ⟨w, rfl⟩ <;> trivial
  case publish => obtain ⟨rfl, hid⟩ := h; exact hid
  all_goals subst h; trivial

/-- What of a result is looked at: of a list of records those of some subscribers, in any order. -/
def Request.Shown : Request → Type
  | subscriptions => Subscription → Prop
  | publish m => (publish m).Result
  | acknowledge k i kind => (acknowledge k i kind).Result
  | recoverNext k limit mode => (recoverNext k limit mode).Result
  | recoverAll k mode => (recoverAll k mode).Result
  | resetBatching k => (resetBatching k).Result
  | subscribe x b => (subscribe x b).Result
  | lookup k => (lookup k).Result
  | unsubscribe k => (unsubscribe k).Result
  | messageCount k => (messageCount k).Result
  | cachedWatermark k => (cachedWatermark k).Result

def Request.shown (seen : SubscriberKey → Prop) : (r : Request) → r.Result → r.Shown
  | subscriptions, xs => fun x => seen x.key ∧ List.Mem x xs
  | publish _, a | messageCount _, a | acknowledge .., a | resetBatching _, a | subscribe .., a
  | unsubscribe _, a | recoverNext .., a | recoverAll .., a | lookup _, a | cachedWatermark _, a => a

end

section

variable {G : Guide} {d : String} {k : SubscriberKey} {s : Turn} {l : Option (Nat × Nat)}

open Op

theorem validate_cases : validate k = pure () ∨ ∃ e, validate k = throw e := by
  unfold validate
  split
  · exact Or.inr ⟨_, rfl⟩
  · exact Or.inl rfl

theorem validateMessage_cases {m : Message} :
    validateMessage d m = pure () ∨ ∃ e, validateMessage d m = throw e := by
  unfold validateMessage
  split <;> split
  · exact Or.inr ⟨_, rfl⟩
  · exact Or.inr ⟨_, rfl⟩
  · exact Or.inr ⟨_, rfl⟩
  · exact Or.inl rfl

theorem alike_required {α : Type} {v : Status} {c : String} {b : α} {p : Phase}
    (hp : s.phase = p) (hl : s.lease = l) :
    (do require v c; pure b : Op α).Alike G p l Eq s (do require v c; pure b) :=
  alike_bind (R := Eq) (alike_ofExcept hp hl sameEnd_refl) fun _ _ _ hp hl _ => alike_pure hp hl rfl

/-- A message that is refused twice is refused in other words, perhaps. -/
theorem alike_stored {x y : Repository.Appended} {c : String} {p : Phase}
    (h : x = y ∨ x.status.isOk = false ∧ y.status.isOk = false) (hp : s.phase = p)
    (hl : s.lease = l) :
    (do require x.status c; pure x.sequence : Op Int).Alike G p l Eq s
      (do require y.status c; pure y.sequence : Op Int) := by
  rcases h with rfl | ⟨hx, hy⟩
  · exact alike_required hp hl
  · have hfail : ∀ s : Status, s.isOk = false → ∃ f, s.require c = .error (.store s.code f) :=
      fun s hs => ⟨_, by simp [Status.require, hs]; rfl⟩
    obtain ⟨f, hf⟩ := hfail x.status hx
    obtain ⟨g, hg⟩ := hfail y.status hy
    simp only [require, hf, hg]
    exact alike_throw hp hl rfl

theorem publish_alike {m : Message} (hc : ∀ c, (Request.publish m).Makes d c → G.asks c) :
    (publish d m).Alike G .closed none Eq { adds := 1 } (publish d m) := by
  refine alike_observed (alike_check validateMessage_cases rfl rfl fun hv => ?_)
  have hid : m.identity.value ≠ "" := by
    intro h
    have hrefused : validateMessage d m = throw (.invalidArgument "message id must not be empty") := by
      simp [validateMessage, h]
    have hne : (pure () : Op Unit).run ≠ (throw (Failure.invalidArgument
      "message id must not be empty") : Op Unit).run := by rintro ⟨⟩
    exact hne (congrArg _ (hv.symm.trans hrefused))
  refine alike_bind (R := Eq) (alike_transacted rfl ?_) ?_
  · refine .call rfl (hc _ ⟨rfl, hid⟩) (Nat.le_refl _) ?_
    rintro _ _ ⟨x, y, rfl, rfl, hxy⟩
    exact alike_stored hxy rfl rfl
  · rintro s n _ hp hl rfl
    exact alike_told rfl rfl fun _ _ => alike_pure hp hl rfl

theorem acknowledge_alike {i : String} {kind : AckKind}
    (hc : ∀ c, (Request.acknowledge k i kind).Makes d c → G.asks c) :
    (acknowledge d k i kind).Alike G .closed none Eq { adds := 1 } (acknowledge d k i kind) := by
  cases kind with
  | unmatched => exact alike_log rfl rfl
  | standard =>
    refine alike_observed (alike_check validate_cases rfl rfl fun _ => ?_)
    refine alike_bind (R := Eq) (alike_transacted rfl ?_) ?_
    · refine .call rfl (hc _ (Or.inl rfl)) (Nat.zero_le _) ?_
      rintro (f | _ | w) _ rfl
      · exact alike_throw rfl rfl rfl
      · exact alike_throw rfl rfl rfl
      refine .call rfl (hc _ (Or.inr ⟨w, rfl⟩)) (Nat.zero_le _) ?_
      rintro (f | a) _ rfl
      · exact alike_throw rfl rfl rfl
      · exact alike_required rfl rfl
    · rintro s w _ hp hl rfl
      exact alike_log hp hl

theorem subscribe_alike {x : Subscription} {b : Bool}
    (hc : ∀ c, (Request.subscribe x b).Makes d c → G.asks c) :
    (subscribe d x b).Alike G .closed none Eq { adds := 1 } (subscribe d x b) := by
  refine alike_observed (alike_check validate_cases rfl rfl fun _ => ?_)
  simp only
  split
  · exact alike_throw rfl rfl rfl
  refine alike_bind (R := Eq) (alike_transacted rfl ?_) fun s _ _ hp hl _ => alike_log hp hl
  refine .call rfl (hc _ rfl) (Nat.zero_le _) ?_
  rintro (f | a) _ rfl
  · exact alike_throw rfl rfl rfl
  · exact alike_ofExcept rfl rfl sameEnd_refl

theorem lookup_alike (hc : ∀ c, (Request.lookup k).Makes d c → G.asks c) :
    (lookup d k).Alike G .closed none Eq { adds := 1 } (lookup d k) := by
  refine alike_observed (alike_check validate_cases rfl rfl fun _ => alike_transacted rfl ?_)
  refine .call rfl (hc _ rfl) (Nat.zero_le _) ?_
  rintro a _ rfl
  exact .done ⟨rfl, rfl, sameEnd_refl⟩

theorem subscriptions_alike (hc : ∀ c, Request.subscriptions.Makes d c → G.asks c) :
    (subscriptions d).Alike G .closed none
      (fun xs ys => ∀ x : Subscription, G.seen x.key → (x ∈ xs ↔ x ∈ ys)) { adds := 1 }
      (subscriptions d) := by
  refine alike_observed (alike_transacted rfl ?_)
  refine .call rfl (hc _ rfl) (Nat.zero_le _) ?_
  rintro _ _ ⟨xs, ys, rfl, rfl, hxy⟩
  exact .done ⟨rfl, rfl, hxy⟩

theorem unsubscribe_alike (hk : G.keys k)
    (hc : ∀ c, (Request.unsubscribe k).Makes d c → G.asks c) :
    (unsubscribe d k).Alike G .closed none Eq { adds := 1 } (unsubscribe d k) := by
  refine alike_observed (alike_check validate_cases rfl rfl fun _ => ?_)
  refine alike_attempt (alike_transacted (R := Eq) (l := none) rfl ?_) ?_
  · refine .call rfl (hc _ rfl) (Nat.zero_le _) ?_
    rintro (f | a) _ rfl
    · exact alike_throw rfl rfl rfl
    · exact alike_ofExcept rfl rfl sameEnd_refl
  · rintro s a b ⟨hp, hl, hr⟩
    exact alike_evict hk (alike_bind (alike_ofExcept hp hl hr) fun s _ _ hp hl _ => alike_log hp hl)

theorem messageCount_alike (hc : ∀ c, (Request.messageCount k).Makes d c → G.asks c) :
    (messageCount d k).Alike G .closed none Eq { adds := 1 } (messageCount d k) := by
  refine alike_observed (alike_check validate_cases rfl rfl fun _ => ?_)
  refine alike_bind (R := Eq) (alike_transacted rfl ?_) ?_
  · refine .call rfl (hc _ rfl) (Nat.zero_le _) ?_
    rintro a _ rfl
    exact .done ⟨rfl, rfl, sameEnd_refl⟩
  · rintro s n _ hp hl rfl
    exact alike_told rfl rfl fun _ _ => alike_pure hp hl rfl

/-- A row is offered twice in the same way, or fails to be decoded twice in the same way. -/
theorem deliver_same {mode : Mode} {r : Row} (hp : s.phase = .closed) (hl : s.lease = l) :
    Operation.Alike G (fun s a b => s.phase = .closed ∧ s.lease = l ∧ a = b) s (deliver mode r).run
      (deliver mode r).run := by
  cases mode with
  | reference =>
    simp only [deliver]
    cases Wire.reference r.id r.sequence with
    | error f => exact .done ⟨hp, hl, rfl⟩
    | ok id => exact .listen rfl hp fun a => .done ⟨hp, hl, rfl⟩
  | messages =>
    simp only [deliver]
    cases Wire.decode r.data with
    | error f => exact .done ⟨hp, hl, rfl⟩
    | ok m => exact .listen rfl hp fun a => .done ⟨hp, hl, rfl⟩

theorem deliver_alike {mode : Mode} {r : Row} (hp : s.phase = .closed) (hl : s.lease = l) :
    (deliver mode r).Alike G .closed l Eq s (deliver mode r) := by
  refine Operation.alike_mono (deliver_same hp hl) ?_
  rintro s a _ ⟨hp, hl, rfl⟩
  exact ⟨hp, hl, sameEnd_refl⟩

theorem offerAll_alike {mode : Mode} {n : Nat} {rows : List Row} (hp : s.phase = .closed)
    (hl : s.lease = l) :
    (offerAll mode n rows).Alike G .closed l Eq s (offerAll mode n rows) := by
  induction rows generalizing n s with
  | nil => exact alike_pure hp hl rfl
  | cons r rows ih =>
    refine alike_bind (R := Eq) (deliver_alike hp hl) ?_
    rintro s accepted _ hp hl rfl
    cases accepted with
    | false => exact alike_pure hp hl rfl
    | true => exact ih hp hl

theorem recoverAll_alike {mode : Mode} (hc : ∀ c, (Request.recoverAll k mode).Makes d c → G.asks c) :
    (recoverAll d k mode).Alike G .closed none Eq { adds := 1 } (recoverAll d k mode) := by
  refine alike_observed (alike_check validate_cases rfl rfl fun _ => ?_)
  refine alike_bind (R := Eq) (alike_transacted rfl ?_) ?_
  · refine .call rfl (hc _ rfl) (Nat.zero_le _) ?_
    rintro scan _ rfl
    refine alike_bind (R := Eq) (alike_ofExcept rfl rfl sameEnd_refl) ?_
    rintro s status _ hp hl rfl
    exact alike_required hp hl
  · rintro s rows _ hp hl rfl
    refine alike_bind (R := Eq) (offerAll_alike hp hl) ?_
    rintro s n _ hp hl rfl
    exact alike_told rfl rfl fun _ _ => alike_pure hp hl rfl

theorem startOf_alike {i i' : Nat} {w : Option Watermark} (hp : s.phase = .closed)
    (hl : s.lease = some (i, i')) (hc : G.asks (.load d k)) :
    (startOf d k ⟨i, w⟩).Alike G .closed (some (i, i')) Eq s (startOf d k ⟨i', w⟩) := by
  cases w with
  | some w => exact alike_pure hp hl rfl
  | none =>
    refine alike_bind (R := Eq) (alike_transacted hp ?_) ?_
    · refine .call rfl hc (Nat.zero_le _) ?_
      rintro a _ rfl
      exact .done ⟨rfl, hl, sameEnd_refl⟩
    · rintro s w _ hp hl rfl
      exact alike_keep hl (alike_pure hp hl rfl)

theorem readRows_alike {w : Watermark} {limit : Nat} (hp : s.phase = .closed) (hl : s.lease = l)
    (hc : G.asks (.scanAfter d k w limit)) :
    (readRows d k w limit).Alike G .closed l (fun x y => x.1 = y.1 ∧ SameEnd Eq x.2 y.2) s
      (readRows d k w limit) := by
  refine alike_attemptBegin hp (alike_asked rfl hc (Nat.zero_le _) ?_)
  rintro scan _ rfl
  refine alike_attempt (P := fun s a b => s.phase ≠ Phase.closed ∧ s.lease = l ∧ SameEnd Eq a b)
    (Operation.alike_bind (alike_ofExcept (R := Eq) rfl hl sameEnd_refl) ?_) ?_
  · rintro s (f | status) (g | _) ⟨hp, hl, hr⟩
    · exact .done ⟨by simp [hp], hl, hr⟩
    · exact hr.elim
    · exact hr.elim
    obtain rfl := hr
    refine Operation.alike_bind (alike_ofExcept (R := Eq) hp hl sameEnd_refl) ?_
    rintro s (f | _) (g | _) ⟨hp, hl, hr⟩
    · exact .done ⟨by simp [hp], hl, hr⟩
    · exact hr.elim
    · exact hr.elim
    · exact .commit hp (.done ⟨nofun, hl, rfl⟩)
  · rintro s a b ⟨hp, hl, hr⟩
    exact alike_close hp (alike_pure rfl hl ⟨rfl, hr⟩)

theorem offerRows_alike {mode : Mode} {p : Progress} {rows : List Row} (hp : s.phase = .closed)
    (hl : s.lease = l) :
    (offerRows mode p rows).Alike G .closed l Eq s (offerRows mode p rows) := by
  induction rows generalizing p s with
  | nil => exact alike_pure hp hl rfl
  | cons r rows ih =>
    unfold offerRows
    split
    · exact ih hp hl
    refine alike_attempt (P := fun s a b => s.phase = .closed ∧ s.lease = l ∧ a = b)
      (.listen rfl hp fun a => ?_) ?_
    · rcases a with f | _ | _
      · exact .done ⟨hp, hl, rfl⟩
      · exact .done ⟨hp, hl, rfl⟩
      · exact deliver_same hp hl
    · rintro s (f | accepted) _ ⟨hp, hl, rfl⟩
      · exact alike_pure hp hl rfl
      cases accepted with
      | false => exact alike_pure hp hl rfl
      | true => exact ih hp hl

theorem settle_alike {i i' : Nat} {p : Progress} (hp : s.phase = .closed)
    (hl : s.lease = some (i, i')) :
    (settle d i p).Alike G .closed (some (i, i')) Eq s (settle d i' p) := by
  unfold settle
  split
  · exact alike_keep hl (alike_told rfl rfl fun _ _ => alike_pure hp hl rfl)
  · exact alike_pure hp hl rfl

theorem offerAndKeep_alike {i i' : Nat} {w : Watermark} {mode : Mode} {rows : List Row}
    {span span' : Telemetry.Span} (hp : s.phase = .closed) (hl : s.lease = some (i, i')) :
    (offerAndKeep d mode span i w rows).Alike G .closed (some (i, i')) Eq s
      (offerAndKeep d mode span' i' w rows) := by
  refine alike_bind (R := Eq) (offerRows_alike hp hl) ?_
  rintro s p _ hp hl rfl
  refine alike_bind (R := Eq) (settle_alike hp hl) ?_
  rintro s _ _ hp hl -
  cases p.failure with
  | some f => exact alike_throw hp hl rfl
  | none => exact alike_told rfl rfl fun _ _ => alike_pure hp hl rfl

theorem pass_alike {i i' limit : Nat} {w : Option Watermark} {mode : Mode}
    {span span' : Telemetry.Span} (hp : s.phase = .closed) (hl : s.lease = some (i, i'))
    (hc : ∀ c, (Request.recoverNext k limit mode).Makes d c → G.asks c) :
    (pass d k limit mode span ⟨i, w⟩).Alike G .closed (some (i, i')) Eq s
      (pass d k limit mode span' ⟨i', w⟩) := by
  refine alike_bind (R := Eq) (startOf_alike hp hl (hc _ (Or.inl rfl))) ?_
  rintro s w _ hp hl rfl
  refine alike_told rfl rfl fun _ _ => ?_
  refine alike_bind (readRows_alike hp hl (hc _ (Or.inr ⟨w, rfl⟩))) ?_
  rintro s ⟨rows, f | _⟩ ⟨_, g | _⟩ hp hl ⟨rfl, hr⟩
  · exact alike_told rfl rfl fun _ _ => alike_told rfl rfl fun _ _ => alike_told rfl rfl fun _ _ =>
      offerAndKeep_alike hp hl
  · exact hr.elim
  · exact hr.elim
  · exact offerAndKeep_alike hp hl

theorem recoverNext_alike {limit : Nat} {mode : Mode} (hk : G.keys k)
    (hc : ∀ c, (Request.recoverNext k limit mode).Makes d c → G.asks c) :
    (recoverNext d k limit mode).Alike G .closed none Eq { adds := 1 }
      (recoverNext d k limit mode) := by
  refine alike_check validate_cases rfl rfl fun _ => alike_told rfl rfl fun span span' =>
    alike_acquire rfl hk fun i i' w => ?_
  refine alike_attempt (pass_alike rfl rfl hc) ?_
  rintro s a b ⟨hp, hl, hr⟩
  exact alike_release hl (alike_told rfl rfl fun _ _ => alike_ofExcept hp rfl hr)

theorem resetBatching_alike (hk : G.keys k) :
    (resetBatching k).Alike G .closed none Eq { adds := 1 } (resetBatching k) :=
  alike_reset hk (alike_log rfl rfl)

theorem cachedWatermark_alike (hk : G.keys k) :
    (cachedWatermark k).Alike G .closed none Eq { adds := 1 } (cachedWatermark k) :=
  .peek hk fun _ => .done ⟨rfl, rfl, rfl⟩

/-- A call that is made twice asks alike. -/
theorem operation_alike {r : Request} (hk : ∀ k, r.key? = some k → G.keys k)
    (hc : ∀ c, r.Makes d c → G.asks c) :
    (r.operation d).Alike G .closed none (fun a b => r.shown G.seen a = r.shown G.seen b)
      { adds := 1 } (r.operation d) := by
  cases r with
  | publish m => exact publish_alike hc
  | acknowledge k i kind => exact acknowledge_alike hc
  | recoverNext k limit mode => exact recoverNext_alike (hk k rfl) hc
  | recoverAll k mode => exact recoverAll_alike hc
  | resetBatching k => exact resetBatching_alike (hk k rfl)
  | subscribe x b => exact subscribe_alike hc
  | lookup k => exact lookup_alike hc
  | subscriptions =>
    refine Operation.alike_mono (subscriptions_alike hc) ?_
    rintro s (f | xs) (g | ys) ⟨hp, hl, hr⟩
    · exact ⟨hp, hl, hr⟩
    · exact hr.elim
    · exact hr.elim
    · exact ⟨hp, hl, funext fun x => propext (and_congr_right fun hx => hr x hx)⟩
  | unsubscribe k => exact unsubscribe_alike (hk k rfl) hc
  | messageCount k => exact messageCount_alike hc
  | cachedWatermark k => exact cachedWatermark_alike (hk k rfl)

end
end Store
end DurableTopic

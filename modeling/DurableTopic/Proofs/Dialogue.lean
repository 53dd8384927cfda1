import DurableTopic.Proofs.Alike
import DurableTopic.Proofs.Calm
import DurableTopic.Proofs.Slots
import DurableTopic.Store.Session
/-! Conversations with a store. Someone makes calls one after the other and answers for the listeners,
who may make calls themselves before they answer. Two stores that hold the same, as far as it is looked
at, cannot be told apart by any conversation. -/
namespace DurableTopic.Store

open Cursor (Thread Cache)
open Repository (Call Ledger)

/-- What a listener is asked. -/
inductive Question where
  | capacity
  | offer (o : Offer)
  deriving Repr, DecidableEq

/-- How far an operation gets by itself: to its end, or to a question for its listener. It may also
wait forever. -/
inductive Fate (α : Type) where
  | ended (a : α) (h : Host)
  | asked (q : Question) (next : Except Failure Bool → Operation α) (h : Host)
  | waits

def Operation.proceed {α : Type} (t : Thread) : Operation α → Host → Fate α
  | .done a, h => .ended a h
  | .perform .hasCapacity next, h => .asked .capacity next h
  | .perform (.offer o) next, h => .asked (.offer o) next h
  | .perform e next, h =>
    match h.answer t e with
    | some (a, h) => (next a).proceed t h
    | none => .waits

/-- A call that waits for its listener. -/
structure Pending where
  request : Request
  next : Except Failure Bool → Operation (Except Failure request.Result)

/-- A store, and the calls on it that wait. The first of them is the innermost. -/
structure Dialogue where
  thread : Thread := Session.thread
  host : Host
  pending : List Pending := []

/-- What can be done next: a call, or an answer to the question that was asked last. -/
inductive Move where
  | call (r : Request)
  | answer (a : Except Failure Bool)

/-- What is seen of a result. A failure is known by its family. -/
def Request.tell (seen : SubscriberKey → Prop) (r : Request) :
    Except Failure r.Result → Except Failure.Family r.Shown
  | .ok a => .ok (r.shown seen a)
  | .error f => .error f.family

/-- What is seen after a move. -/
inductive View where
  | asked (q : Question)
  | returned (r : Request) (a : Except Failure.Family r.Shown)
  | unasked
  | waits

/-- Someone whose moves follow from all that was seen. -/
abbrev Strategy := List View → Option Move

/-- The call that is made, if it is one. -/
def Move.request? : Move → Option Request
  | .call r => some r
  | .answer _ => none

/-- Moves that are made whatever is seen. -/
def Strategy.script (ms : List Move) : Strategy := fun vs => ms[vs.length]?

theorem script_calls {P : Request → Bool} {ms : List Move} {vs : List View} {r : Request}
    (h : ∀ m ∈ ms, m.request?.all P) (hr : Strategy.script ms vs = some (.call r)) : P r :=
  h _ (List.mem_of_getElem? hr)

namespace Dialogue

/-- An operation goes on, as far as it gets. -/
def goOn (seen : SubscriberKey → Prop) (d : Dialogue) (r : Request)
    (x : Operation (Except Failure r.Result)) : View × Option Dialogue :=
  match x.proceed d.thread d.host with
  | .ended a host => (.returned r (r.tell seen a), some { d with host })
  | .asked q next host => (.asked q, some { d with host, pending := ⟨r, next⟩ :: d.pending })
  | .waits => (.waits, none)

/-- What follows a move. Nothing follows a call that waits forever. -/
def respond (seen : SubscriberKey → Prop) (d : Dialogue) : Move → View × Option Dialogue
  | .call r => d.goOn seen r (r.operation d.host.destination)
  | .answer a =>
    match d.pending with
    | [] => (.unasked, some d)
    | p :: ps => { d with pending := ps }.goOn seen p.request (p.next a)

/-- All that is seen of a conversation of so many moves. -/
def views (seen : SubscriberKey → Prop) (σ : Strategy) : Nat → List View → Dialogue → List View
  | 0, vs, _ => vs
  | n + 1, vs, d =>
    match σ vs with
    | none => vs
    | some m =>
      match d.respond seen m with
      | (v, some d) => views seen σ n (vs ++ [v]) d
      | (v, none) => vs ++ [v]

end Dialogue

section

variable {α : Type} {t : Thread} {h : Host}

theorem proceed_perform {e : Effect} {next : e.Reply → Operation α} (he : e.isCallback = false) :
    Operation.proceed t (.perform e next) h =
      match h.answer t e with
      | some (a, h) => (next a).proceed t h
      | none => .waits := by
  cases e <;> first | cases he; done | simp only [Operation.proceed]

theorem proceed_some {e : Effect} {next : e.Reply → Operation α} {a : e.Reply} {g : Host}
    (he : e.isCallback = false) (ha : h.answer t e = some (a, g)) :
    Operation.proceed t (.perform e next) h = (next a).proceed t g := by
  rw [proceed_perform he, ha]

theorem isCallback_of_isTold {e : Effect} (he : e.isTold) : e.isCallback = false := by
  cases e <;> first | rfl | cases he

/-- What a listener of a session answers. -/
def Listener.hears (l : Listener Session) : Question → Session (Except Failure Bool)
  | .capacity => l.hasCapacity
  | .offer o => l.offer o

/-- An operation that is run for a listener proceeds from one of its answers to the next. -/
theorem run_proceed (l : Listener Session) (x : Operation α) :
    x.run (l.answer t) h =
      match x.proceed t h with
      | .ended a h => some (a, h)
      | .asked q next h => (l.hears q h).bind fun (a, h) => (next a).run (l.answer t) h
      | .waits => none := by
  induction x generalizing h with
  | done a => rfl
  | perform e next ih =>
    cases hc : e.isCallback with
    | true =>
      cases e <;> simp only [Effect.isCallback, Bool.false_eq_true] at hc
      · rfl
      · rfl
    | false =>
      have hl : l.answer t e = Host.reply t e := by cases e <;> first | rfl | cases hc
      rw [proceed_perform hc, Operation.run_perform, hl]
      change (h.answer t e).bind (fun p => (next p.1).run (l.answer t) p.2) = _
      cases h.answer t e with
      | none => rfl
      | some p => exact ih p.1

end

/-- Two backends, and what stores on them may hold such that some calls on them are answered alike. Of
the records only those of some subscribers are looked at, and no more than so many messages are stored. -/
structure Likeness where
  left : Keeping
  right : Keeping
  destination : right.destination = left.destination
  allows : Request → Prop
  seen : SubscriberKey → Prop
  bound : Nat
  like : Nat → Ledger → Ledger → Prop
  grows : ∀ m n l l', m ≤ n → like m l l' → like n l l'
  answers : ∀ n l₁ l₂ r c a₁ a₂ l₁' l₂', allows r → r.Makes left.destination c →
    n + c.adds ≤ bound → like n l₁ l₂ → l₁.Keyed left.spell → l₂.Keyed right.spell →
    l₁.Yields left.spell left.first c a₁ l₁' → l₂.Yields right.spell right.first c a₂ l₂' →
    c.Agree seen a₁ a₂ ∧ like (n + c.adds) l₁' l₂'

namespace Likeness

/-- What the allowed calls may ask for. -/
def guide (L : Likeness) : Guide where
  asks c := ∃ r, L.allows r ∧ r.Makes L.left.destination c
  keys k := ∃ r, L.allows r ∧ r.key? = some k
  seen := L.seen

/-- Two hosts that hold alike, with at most so many messages. -/
structure Hosts (L : Likeness) (R : Nat → Nat → Prop) (n : Nat) (p : Phase) (h h' : Host) : Prop where
  cursors : h.cursors.Alike L.guide.keys R h'.cursors
  calm : ∃ base base' l l', h.Calm L.left p base l ∧ h'.Calm L.right p base' l' ∧
    L.like n base base' ∧ L.like n l l'

/-- Two operations that ask alike from here on, and how they end. -/
abbrev Ahead {α β : Type} (L : Likeness) (Q : α → β → Prop) : Turn → Operation α → Operation β → Prop :=
  Operation.Alike L.guide fun s a b => s.phase = .closed ∧ Q a b

/-- Two operations get equally far. So many messages may be stored by then, or are still to come. -/
inductive Fates {α β : Type} (L : Likeness) (Q : α → β → Prop) (R : Nat → Nat → Prop) (n : Nat) :
    Fate α → Fate β → Prop where
  | ended {S : Nat → Nat → Prop} {m : Nat} {a : α} {b : β} {h h' : Host} (hS : ∀ i j, R i j → S i j)
      (hm : m ≤ n) (hh : L.Hosts S m .closed h h') (hq : Q a b) :
      Fates L Q R n (.ended a h) (.ended b h')
  | asked {S : Nat → Nat → Prop} {m : Nat} {s : Turn} {q : Question}
      {next : Except Failure Bool → Operation α} {next' : Except Failure Bool → Operation β}
      {h h' : Host} (hS : ∀ i j, R i j → S i j) (hm : m + s.adds ≤ n)
      (hh : L.Hosts S m .closed h h') (hs : s.phase = .closed)
      (hl : ∀ i j, s.lease = some (i, j) → S i j) (ha : ∀ a, L.Ahead Q s (next a) (next' a)) :
      Fates L Q R n (.asked q next h) (.asked q next' h')
  | waits : Fates L Q R n .waits .waits

/-- Of both ends of a call the same is seen. -/
def Tells (L : Likeness) (r : Request) (a b : Except Failure r.Result) : Prop :=
  r.tell L.seen a = r.tell L.seen b

/-- Calls that wait for their listeners and will ask alike. So many messages they may still store. -/
inductive Waiting (L : Likeness) (R : Nat → Nat → Prop) : Nat → List Pending → List Pending → Prop where
  | nil : Waiting L R 0 [] []
  | cons {n : Nat} {s : Turn} {r : Request}
      {next next' : Except Failure Bool → Operation (Except Failure r.Result)} {ps ps' : List Pending}
      (hs : s.phase = .closed) (hl : ∀ i j, s.lease = some (i, j) → R i j)
      (ha : ∀ a, L.Ahead (L.Tells r) s (next a) (next' a)) (h : Waiting L R n ps ps') :
      Waiting L R (n + s.adds) (⟨r, next⟩ :: ps) (⟨r, next'⟩ :: ps')

/-- Two conversations that stand at the same point, after so many calls. -/
structure Dialogues (L : Likeness) (n : Nat) (d d' : Dialogue) : Prop where
  thread : d'.thread = d.thread
  stands : ∃ R m w, L.Hosts R m .closed d.host d'.host ∧ L.Waiting R w d.pending d'.pending ∧
    m + w ≤ n

section

variable {α β : Type} {L : Likeness} {Q : α → β → Prop} {R S : Nat → Nat → Prop} {m n : Nat}
  {p : Phase} {h h' : Host} {t : Thread} {s : Turn}

theorem fates_mono {x : Fate α} {y : Fate β} (hS : ∀ i j, R i j → S i j) (hf : L.Fates Q S n x y) :
    L.Fates Q R n x y := by
  cases hf with
  | ended hT hm hh hq => exact .ended (fun i j hi => hT i j (hS i j hi)) hm hh hq
  | asked hT hm hh hs hl ha => exact .asked (fun i j hi => hT i j (hS i j hi)) hm hh hs hl ha
  | waits => exact .waits

/-- What only the cursors take part in leaves the rest of two hosts alike. -/
theorem hosts_cursors {c c' : Cache} (hh : L.Hosts R n p h h')
    (hc : c.Alike L.guide.keys S c') :
    L.Hosts S n p { h with cursors := c } { h' with cursors := c' } := by
  obtain ⟨-, base, base', l, l', hl, hr, hbase, hlike⟩ := hh
  exact ⟨hc, base, base', l, l', Host.calm_of_backend hl rfl rfl, Host.calm_of_backend hr rfl rfl,
    hbase, hlike⟩

theorem hosts_told {e e' : Effect} (he : e.isTold) (he' : e'.isTold) (hh : L.Hosts R n p h h') :
    ∃ a g a' g', h.answer t e = some (a, g) ∧ h'.answer t e' = some (a', g') ∧ L.Hosts R n p g g' := by
  obtain ⟨a, g, ha, hb, hc, hd⟩ := Host.answer_told (h := h) (t := t) he
  obtain ⟨a', g', ha', hb', hc', hd'⟩ := Host.answer_told (h := h') (t := t) he'
  obtain ⟨hcur, base, base', l, l', hl, hr, hbase, hlike⟩ := hh
  exact ⟨a, g, a', g', ha, ha', by rwa [hc, hc'], base, base', l, l',
    Host.calm_of_backend hl hb hd, Host.calm_of_backend hr hb' hd', hbase, hlike⟩

theorem hosts_begin (hh : L.Hosts R n .closed h h') :
    ∃ g g', h.begin = (.ok (), g) ∧ h'.begin = (.ok (), g') ∧ L.Hosts R n .active g g' := by
  obtain ⟨hcur, base, base', l, l', hl, hr, hbase, hlike⟩ := hh
  obtain ⟨ha, hc, hl⟩ := Host.calm_begin hl
  obtain ⟨ha', hc', hr⟩ := Host.calm_begin hr
  exact ⟨_, _, Prod.ext ha rfl, Prod.ext ha' rfl, by rwa [hc, hc'], base, base', l, l', hl, hr, hbase,
    hlike⟩

theorem hosts_call {c : Call} (hh : L.Hosts R n .active h h') (hc : L.guide.asks c)
    (hb : n + c.adds ≤ L.bound) : ∃ a g a' g', h.perform c = (a, g) ∧ h'.perform c = (a', g') ∧
      c.Agree L.seen a a' ∧ L.Hosts R (n + c.adds) .active g g' := by
  obtain ⟨r, hr, hm⟩ := hc
  obtain ⟨hcur, base, base', l, l', hl, hr', hbase, hlike⟩ := hh
  have hd := Request.makes_destination hm
  obtain ⟨hc, hk, l₁, hl, hy⟩ := Host.calm_call hl hd (Request.makes_named hm)
  obtain ⟨hc', hk', l₁', hr', hy'⟩ :=
    Host.calm_call hr' (hd.trans L.destination.symm) (Request.makes_named hm)
  obtain ⟨hagree, hlike⟩ := L.answers _ _ _ _ _ _ _ _ _ hr hm hb hlike hk hk' hy hy'
  exact ⟨(h.perform c).1, (h.perform c).2, (h'.perform c).1, (h'.perform c).2, rfl, rfl, hagree,
    by rwa [hc, hc'], base, base', l₁, l₁', hl, hr', L.grows _ _ _ _ (Nat.le_add_right ..) hbase, hlike⟩

theorem hosts_commit (hh : L.Hosts R n .active h h') :
    ∃ g g', h.commit = (.ok (), g) ∧ h'.commit = (.ok (), g') ∧ L.Hosts R n .ended g g' := by
  obtain ⟨hcur, base, base', l, l', hl, hr, hbase, hlike⟩ := hh
  obtain ⟨ha, hc, hl⟩ := Host.calm_commit hl
  obtain ⟨ha', hc', hr⟩ := Host.calm_commit hr
  exact ⟨_, _, Prod.ext ha rfl, Prod.ext ha' rfl, by rwa [hc, hc'], _, _, _, _, hl, hr, hlike, hlike⟩

/-- A call on the cursors is answered alike by both, or waits on both. -/
theorem hosts_onCursors {r : Cursor.Call} (hh : L.Hosts R n p h h')
    (hr : r.About L.guide.keys) : (h.onCursors t r = none ∧ h'.onCursors t r = none) ∨
    ∃ S a a' g g', (∀ i j, R i j → S i j) ∧ h.onCursors t r = some (a, g) ∧
      h'.onCursors t r = some (a', g') ∧ L.Hosts S n p g g' ∧ a.Renamed S a' := by
  unfold Host.onCursors
  rcases Cache.alike_call (t := t) hh.cursors hr with
    ⟨hc, hc'⟩ | ⟨S, a, a', c, c', hS, hc, hc', hcur, ha⟩
  · exact Or.inl ⟨by rw [hc]; rfl, by rw [hc']; rfl⟩
  · exact Or.inr ⟨S, a, a', _, _, hS, by rw [hc]; rfl, by rw [hc']; rfl, hosts_cursors hh hcur, ha⟩

theorem hosts_close (hh : L.Hosts R n p h h') : L.Hosts R n .closed h.close h'.close := by
  obtain ⟨hcur, base, base', l, l', hl, hr, hbase, -⟩ := hh
  obtain ⟨hc, hl⟩ := Host.calm_close hl
  obtain ⟨hc', hr⟩ := Host.calm_close hr
  exact ⟨by rwa [hc, hc'], _, _, _, _, hl, hr, hbase, hbase⟩

/-- Operations that ask alike on hosts that hold alike get equally far, to places that are alike. -/
theorem proceed_alike {x : Operation α} {y : Operation β} (hx : L.Ahead Q s x y)
    (hh : L.Hosts R n s.phase h h') (hl : ∀ i j, s.lease = some (i, j) → R i j)
    (hb : n + s.adds ≤ L.bound) :
    L.Fates Q R (n + s.adds) (x.proceed t h) (y.proceed t h') := by
  induction hx generalizing R n h h' with
  | @done s a b hd =>
    obtain ⟨hp, hq⟩ := hd
    exact .ended (fun _ _ h => h) (Nat.le_add_right ..) (hp ▸ hh) hq
  | told he he' _ ih =>
    obtain ⟨a, g, a', g', ha, ha', hh⟩ := hosts_told (t := t) he he' hh
    rw [proceed_some (isCallback_of_isTold he) ha, proceed_some (isCallback_of_isTold he') ha']
    exact ih _ _ hh hl hb
  | begin hs _ ih =>
    obtain ⟨g, g', ha, ha', hh⟩ := hosts_begin (hs ▸ hh)
    rw [proceed_some (e := .begin) rfl (congrArg some ha), proceed_some (e := .begin) rfl (congrArg some ha')]
    exact ih hh hl hb
  | @call s c next next' hs hc hn _ ih =>
    obtain ⟨a, g, a', g', ha, ha', hagree, hh⟩ := hosts_call (hs ▸ hh) hc (by omega)
    rw [proceed_some (e := .call c) rfl (congrArg some ha), proceed_some (e := .call c) rfl (congrArg some ha')]
    have hn' : n + s.adds = n + c.adds + (s.adds - c.adds) := by omega
    rw [hn']
    exact ih a a' hagree (hs ▸ hh) hl (by simp only; omega)
  | commit hs _ ih =>
    obtain ⟨g, g', ha, ha', hh⟩ := hosts_commit (hs ▸ hh)
    rw [proceed_some (e := .commit) rfl (congrArg some ha), proceed_some (e := .commit) rfl (congrArg some ha')]
    exact ih hh hl hb
  | close hs _ ih =>
    rw [proceed_some rfl rfl, proceed_some rfl rfl]
    exact ih (hosts_close hh) hl hb
  | acquire hs hk _ ih =>
    rw [proceed_perform rfl, proceed_perform rfl]
    simp only [Host.answer]
    rcases hosts_onCursors (t := t) hh (.acquire hk) with
      ⟨hc, hc'⟩ | ⟨S, a, a', g, g', hS, hc, hc', hh, ha⟩
    · rw [hc, hc']
      exact .waits
    · rw [hc, hc']
      cases ha with
      | leased hi =>
        refine fates_mono hS (ih _ _ _ hh ?_ hb)
        rintro i j ⟨⟩
        exact hi
      | done | shown => exact .waits
  | keep hs _ ih =>
    rw [proceed_some rfl rfl, proceed_some rfl rfl]
    exact ih (hosts_cursors hh (Cache.alike_keep hh.cursors (hl _ _ hs))) hl hb
  | release hs _ ih =>
    rw [proceed_some rfl rfl, proceed_some rfl rfl]
    exact ih (hosts_cursors hh (Cache.alike_release hh.cursors (hl _ _ hs))) (by simp) hb
  | reset hk _ ih =>
    rw [proceed_perform rfl, proceed_perform rfl]
    simp only [Host.answer]
    rcases hosts_onCursors (t := t) hh (.reset hk) with
      ⟨hc, hc'⟩ | ⟨S, a, a', g, g', hS, hc, hc', hh, -⟩
    · rw [hc, hc']
      exact .waits
    · rw [hc, hc']
      exact fates_mono hS (ih hh (fun i j hi => hS i j (hl i j hi)) hb)
  | evict hk _ ih =>
    rw [proceed_perform rfl, proceed_perform rfl]
    simp only [Host.answer]
    rcases hosts_onCursors (t := t) hh (.evict hk) with
      ⟨hc, hc'⟩ | ⟨S, a, a', g, g', hS, hc, hc', hh, -⟩
    · rw [hc, hc']
      exact .waits
    · rw [hc, hc']
      exact fates_mono hS (ih hh (fun i j hi => hS i j (hl i j hi)) hb)
  | peek hk _ ih =>
    rw [proceed_perform rfl, proceed_perform rfl]
    simp only [Host.answer]
    rcases hosts_onCursors (t := t) hh (.peek hk) with
      ⟨hc, hc'⟩ | ⟨S, a, a', g, g', hS, hc, hc', hh, ha⟩
    · rw [hc, hc']
      exact .waits
    · rw [hc, hc']
      cases ha <;> exact fates_mono hS (ih _ hh (fun i j hi => hS i j (hl i j hi)) hb)
  | @listen s e next next' he hs ha _ =>
    cases e <;> simp only [Effect.isCallback, Bool.false_eq_true] at he
    · exact .asked (fun _ _ h => h) (Nat.le_refl _) (hs ▸ hh) hs hl ha
    · exact .asked (fun _ _ h => h) (Nat.le_refl _) (hs ▸ hh) hs hl ha

theorem waiting_mono {ps ps' : List Pending} (hS : ∀ i j, R i j → S i j)
    (h : L.Waiting R n ps ps') : L.Waiting S n ps ps' := by
  induction h with
  | nil => exact .nil
  | cons hs hl ha _ ih => exact .cons hs (fun i j hi => hS i j (hl i j hi)) ha ih

variable {d d' : Dialogue} {r : Request} {w : Nat} {σ : Strategy} {vs : List View}

theorem goOn_alike {x y : Operation (Except Failure r.Result)} (ht : d'.thread = d.thread)
    (hh : L.Hosts R m .closed d.host d'.host) (hw : L.Waiting R w d.pending d'.pending)
    (hx : L.Ahead (L.Tells r) s x y) (hs : s.phase = .closed)
    (hl : ∀ i j, s.lease = some (i, j) → R i j) (hn : m + s.adds + w ≤ n) (hb : n ≤ L.bound) :
    (d.goOn L.seen r x).1 = (d'.goOn L.seen r y).1 ∧
      Option.Rel (L.Dialogues n) (d.goOn L.seen r x).2 (d'.goOn L.seen r y).2 := by
  have hfates := proceed_alike (t := d.thread) hx (hs ▸ hh) hl (by omega)
  unfold Dialogue.goOn
  rw [ht]
  generalize x.proceed d.thread d.host = f, y.proceed d.thread d'.host = f' at hfates
  cases hfates with
  | ended hS hm hh hq =>
    exact ⟨congrArg (View.returned r) hq, .some ⟨rfl, _, _, _, hh, waiting_mono hS hw, by omega⟩⟩
  | asked hS hm hh hs hl ha =>
    exact ⟨rfl, .some ⟨rfl, _, _, _, hh, .cons hs hl ha (waiting_mono hS hw), by omega⟩⟩
  | waits => exact ⟨rfl, .none⟩

/-- A move has the same answer in both, and leaves them at the same point. -/
theorem respond_alike {a : Move} (h : L.Dialogues n d d') (ha : ∀ r, a = .call r → L.allows r)
    (hb : n + 1 ≤ L.bound) : (d.respond L.seen a).1 = (d'.respond L.seen a).1 ∧
      Option.Rel (L.Dialogues (n + 1)) (d.respond L.seen a).2 (d'.respond L.seen a).2 := by
  obtain ⟨ht, R, m, w, hh, hw, hn⟩ := h
  cases a with
  | call r =>
    have hdest : d'.host.destination = d.host.destination := by
      obtain ⟨-, _, _, _, _, hc, hc', -⟩ := hh
      rw [hc'.destination, hc.destination, L.destination]
    have hd : d.host.destination = L.left.destination := by
      obtain ⟨-, _, _, _, _, hc, -⟩ := hh
      exact hc.destination
    have hx : L.Ahead (L.Tells r) { adds := 1 } (r.operation d.host.destination)
        (r.operation d.host.destination) := by
      refine Operation.alike_mono (operation_alike (fun k hk => ⟨r, ha r rfl, hk⟩)
        fun c hc => ⟨r, ha r rfl, hd ▸ hc⟩) ?_
      rintro s (f | a) (g | b) ⟨hp, -, hr⟩
      · exact ⟨hp, congrArg Except.error hr⟩
      · exact hr.elim
      · exact hr.elim
      · exact ⟨hp, congrArg Except.ok hr⟩
    simp only [Dialogue.respond, hdest]
    exact goOn_alike ht hh hw hx rfl (by simp) (by simp only; omega) hb
  | answer a =>
    obtain ⟨thread, host, pending⟩ := d
    obtain ⟨thread', host', pending'⟩ := d'
    cases hw with
    | nil => exact ⟨rfl, .some ⟨ht, R, m, 0, hh, .nil, by omega⟩⟩
    | cons hs hl hx hw => exact goOn_alike ht hh hw (hx a) hs hl (by omega) hb

/-- What holds alike cannot be told apart. -/
theorem views_alike (h : L.Dialogues m d d') (hσ : ∀ vs r, σ vs = some (.call r) → L.allows r)
    (hb : m + n ≤ L.bound) :
    Dialogue.views L.seen σ n vs d = Dialogue.views L.seen σ n vs d' := by
  induction n generalizing m vs d d' with
  | zero => rfl
  | succ n ih =>
    unfold Dialogue.views
    cases hm : σ vs with
    | none => rfl
    | some a =>
      obtain ⟨hv, hrel⟩ := respond_alike h (a := a) (fun r hr => hσ vs r (hr ▸ hm)) (by omega)
      simp only
      generalize d.respond L.seen a = q, d'.respond L.seen a = q' at hv hrel
      obtain ⟨v, e⟩ := q
      obtain ⟨v', e'⟩ := q'
      obtain rfl : v = v' := hv
      cases hrel with
      | none => rfl
      | some h => exact ih h (by omega)

end

end Likeness
end DurableTopic.Store

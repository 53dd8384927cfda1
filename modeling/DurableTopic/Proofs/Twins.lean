import DurableTopic.Proofs.Dialogue
/-! Stores that differ only in their caches of cursors, and there only in the places of slots and in
slots that are new. Every conversation goes the same way on both, to the letter: the same results, the
same texts of failures, the same lists in the same order, and the same questions for the listeners. -/
namespace DurableTopic.Store

open Cursor (Thread Cache)

/-- Whether a slot is named in what is asked, or in the answer. -/
def Effect.namesSlot : Effect → Bool
  | .acquire _ | .keep .. | .release _ => true
  | _ => false

/-- Operations that ask for the same things, except that their leases may be on different slots. Both
slots are given at the start and at the end. -/
inductive Operation.Twin {α : Type} (m : Option (Nat × Nat)) :
    Option (Nat × Nat) → Operation α → Operation α → Prop where
  | done {a : α} : Twin m m (.done a) (.done a)
  | ask {l : Option (Nat × Nat)} {e : Effect} {next next' : e.Reply → Operation α}
      (he : e.namesSlot = false) (h : ∀ a, Twin m l (next a) (next' a)) :
      Twin m l (.perform e next) (.perform e next')
  | acquire {k : SubscriberKey} {next next' : Lease → Operation α}
      (h : ∀ i j w, Twin m (some (i, j)) (next ⟨i, w⟩) (next' ⟨j, w⟩)) :
      Twin m none (.perform (.acquire k) next) (.perform (.acquire k) next')
  | keep {i j : Nat} {w : Watermark} {next next' : Unit → Operation α}
      (h : Twin m (some (i, j)) (next ()) (next' ())) :
      Twin m (some (i, j)) (.perform (.keep i w) next) (.perform (.keep j w) next')
  | release {i j : Nat} {next next' : Unit → Operation α} (h : Twin m none (next ()) (next' ())) :
      Twin m (some (i, j)) (.perform (.release i) next) (.perform (.release j) next')

/-- The same for operations that may fail. -/
def Op.Twin {α : Type} (l m : Option (Nat × Nat)) (x y : Op α) : Prop :=
  Operation.Twin m l x.run y.run

section

variable {α β : Type} {l m n : Option (Nat × Nat)} {d : String} {k : SubscriberKey} {i j : Nat}

theorem Operation.twin_bind {x y : Operation α} {f g : α → Operation β} (h : x.Twin m l y)
    (hf : ∀ a, (f a).Twin n m (g a)) : (x.bind f).Twin n l (y.bind g) := by
  induction h with
  | done => exact hf _
  | ask he _ ih => exact .ask he ih
  | acquire _ ih => exact .acquire ih
  | keep _ ih => exact .keep ih
  | release _ ih => exact .release ih

/-- An operation without a lease is its own twin. -/
theorem Operation.twin_of_follows {r : Request} {Q : Stage → α → Prop} {x : Operation α} {s : Stage}
    (h : x.Follows d r Q s) (hs : s.Fits r) (hr : ∀ k, r.batches k = false) : x.Twin none none x := by
  induction x generalizing s with
  | done a => exact .done
  | perform e next ih =>
    obtain ⟨hp, hnext⟩ := h
    obtain ⟨hlease, -⟩ := hs.plain hr
    have he : e.namesSlot = false := by
      cases e with
      | acquire k =>
        have hb := hp.2.2.2
        rw [hr k] at hb
        cases hb
      | keep | release =>
        have hl := hp.2.1
        rw [hlease] at hl
        cases hl
      | _ => rfl
    exact .ask he fun a => ih a (hnext a) (Stage.fits_next hs hp a)

namespace Op

variable {x y : Op α} {f g : α → Op β}

theorem twin_bind (h : Twin l m x y) (hf : ∀ a, Twin m m (f a) (g a)) :
    Twin l m (x >>= f) (y >>= g) := by
  refine Operation.twin_bind h ?_
  rintro (e | a)
  · exact .done
  · exact hf a

/-- What is attempted does not fail, so what follows may end with another lease. -/
theorem twin_attempt {f g : Except Failure α → Op β} (h : Twin l m x y)
    (hf : ∀ a, Twin m n (f a) (g a)) : Twin l n (attempt x >>= f) (attempt y >>= g) := by
  have hbind : ∀ {z : Op α} {k : Except Failure α → Op β}, (attempt z >>= k).run = z.run.bind k :=
    Operation.bind_assoc _ _ _
  unfold Twin
  rw [hbind, hbind]
  exact Operation.twin_bind h hf

theorem twin_ask {e : Effect} {f g : e.Reply → Op β} (he : e.namesSlot = false)
    (hf : ∀ a, Twin l m (f a) (g a)) : Twin l m (ask e >>= f) (ask e >>= g) := .ask he hf

theorem twin_ofExcept {a : Except Failure α} : Twin l l (ofExcept a) (ofExcept a) := by
  cases a <;> exact .done

theorem twin_inContext {c : String} (h : Twin l m x y) : Twin l m (inContext c x) (inContext c y) :=
  Operation.twin_bind h fun _ => .done

theorem twin_inTransaction (h : Twin l l x y) : Twin l l (inTransaction x) (inTransaction y) := by
  refine twin_bind (.ask rfl fun _ => .done) fun _ => ?_
  refine twin_attempt (twin_bind h fun _ => ?_) fun _ => twin_ask rfl fun _ => twin_ofExcept
  exact twin_bind (.ask rfl fun _ => .done) fun _ => .done

theorem twin_deliver {mode : Mode} {r : Row} : Twin l l (deliver mode r) (deliver mode r) := by
  cases mode <;> exact twin_bind twin_ofExcept fun _ => .ask rfl fun _ => .done

theorem twin_offerRows {mode : Mode} {p : Progress} {rows : List Row} :
    Twin l l (offerRows mode p rows) (offerRows mode p rows) := by
  induction rows generalizing p with
  | nil => exact .done
  | cons r rows ih =>
    unfold offerRows
    split
    · exact ih
    refine twin_attempt (m := l) (twin_bind (.ask rfl fun _ => .done) fun takes => ?_) ?_
    · cases takes
      · exact .done
      · exact twin_deliver
    · rintro (f | _ | _)
      · exact .done
      · exact .done
      · exact ih

theorem twin_readRows {above : Watermark} {limit : Nat} :
    Twin l l (readRows d k above limit) (readRows d k above limit) := by
  refine twin_attempt (m := l) (.ask rfl fun _ => .done) ?_
  rintro (f | _)
  · exact .done
  refine twin_ask rfl fun scan => twin_attempt (m := l) ?_ fun _ => twin_ask rfl fun _ => .done
  exact twin_bind twin_ofExcept fun _ => twin_bind twin_ofExcept fun _ => .ask rfl fun _ => .done

theorem twin_startOf {w : Option Watermark} :
    Twin (some (i, j)) (some (i, j)) (startOf d k ⟨i, w⟩) (startOf d k ⟨j, w⟩) := by
  cases w with
  | some w => exact .done
  | none =>
    refine twin_bind (twin_inContext (twin_inTransaction (.ask rfl fun _ => .done))) fun w => ?_
    exact .keep .done

theorem twin_settle {p : Progress} :
    Twin (some (i, j)) (some (i, j)) (settle d i p) (settle d j p) := by
  unfold settle
  split
  · exact .keep (twin_ask rfl fun _ => .done)
  · exact .done

theorem twin_offerAndKeep {mode : Mode} {span : Telemetry.Span} {above : Watermark}
    {rows : List Row} : Twin (some (i, j)) (some (i, j)) (offerAndKeep d mode span i above rows)
      (offerAndKeep d mode span j above rows) := by
  refine twin_bind twin_offerRows fun p => twin_bind twin_settle fun _ => ?_
  cases p.failure with
  | some f => exact .done
  | none => exact twin_ask rfl fun _ => .done

theorem twin_pass {limit : Nat} {mode : Mode} {span : Telemetry.Span} {w : Option Watermark} :
    Twin (some (i, j)) (some (i, j)) (pass d k limit mode span ⟨i, w⟩)
      (pass d k limit mode span ⟨j, w⟩) := by
  refine twin_bind twin_startOf fun above => twin_ask rfl fun _ => twin_bind twin_readRows ?_
  rintro ⟨rows, f | _⟩
  · exact twin_ask rfl fun _ => twin_ask rfl fun _ => twin_ask rfl fun _ => twin_offerAndKeep
  · exact twin_offerAndKeep

end Op

theorem recoverNext_twin {limit : Nat} {mode : Mode} :
    Op.Twin none none (recoverNext d k limit mode) (recoverNext d k limit mode) := by
  rcases validate_cases (k := k) with hv | ⟨e, hv⟩
  · unfold recoverNext
    rw [hv]
    refine Op.twin_ask rfl fun span => .acquire fun i j w => ?_
    refine Op.twin_attempt Op.twin_pass fun r => .release (Op.twin_ask rfl fun _ => ?_)
    exact Op.twin_ofExcept
  · unfold recoverNext
    rw [hv]
    exact .done

/-- A call asks for the same things wherever its slot is. -/
theorem operation_twin (r : Request) : Op.Twin none none (r.operation d) (r.operation d) := by
  cases r with
  | recoverNext => exact recoverNext_twin
  | _ => exact Operation.twin_of_follows (operation_follows _) Stage.fits_initial fun _ => rfl

end

/-- What is heard after a move, to the letter. -/
inductive Sight where
  | asked (q : Question)
  | returned (r : Request) (a : Except Failure r.Result)
  | unasked
  | waits

/-- What is left of it when failures are known by their family and not every record is looked at. -/
def Sight.dimmed (seen : SubscriberKey → Prop) : Sight → View
  | asked q => .asked q
  | returned r a => .returned r (r.tell seen a)
  | unasked => .unasked
  | waits => .waits

namespace Dialogue

/-- An operation goes on, as far as it gets. -/
def advance (d : Dialogue) (r : Request) (x : Operation (Except Failure r.Result)) :
    Sight × Option Dialogue :=
  match x.proceed d.thread d.host with
  | .ended a host => (.returned r a, some { d with host })
  | .asked q next host => (.asked q, some { d with host, pending := ⟨r, next⟩ :: d.pending })
  | .waits => (.waits, none)

/-- What follows a move. Nothing follows a call that waits forever. -/
def hear (d : Dialogue) : Move → Sight × Option Dialogue
  | .call r => d.advance r (r.operation d.host.destination)
  | .answer a =>
    match d.pending with
    | [] => (.unasked, some d)
    | p :: ps => { d with pending := ps }.advance p.request (p.next a)

/-- All that is heard in a conversation of so many moves, which follow from what was heard before. -/
def sights (σ : List Sight → Option Move) : Nat → List Sight → Dialogue → List Sight
  | 0, vs, _ => vs
  | n + 1, vs, d =>
    match σ vs with
    | none => vs
    | some m =>
      match d.hear m with
      | (v, some d) => sights σ n (vs ++ [v]) d
      | (v, none) => vs ++ [v]

theorem goOn_dimmed {seen : SubscriberKey → Prop} {d : Dialogue} {r : Request}
    {x : Operation (Except Failure r.Result)} :
    d.goOn seen r x = ((d.advance r x).1.dimmed seen, (d.advance r x).2) := by
  unfold goOn advance
  cases x.proceed d.thread d.host <;> rfl

/-- A view is what is left of what is heard. -/
theorem respond_dimmed {seen : SubscriberKey → Prop} {d : Dialogue} {m : Move} :
    d.respond seen m = ((d.hear m).1.dimmed seen, (d.hear m).2) := by
  cases m with
  | call r => exact goOn_dimmed
  | answer a =>
    obtain ⟨thread, host, pending⟩ := d
    cases pending with
    | nil => rfl
    | cons p ps => exact goOn_dimmed

end Dialogue

/-- Hosts that differ only in the places of slots, and in what was logged. -/
structure Host.Twins (R : Nat → Nat → Prop) (h h' : Host) : Prop where
  destination : h.destination = h'.destination
  backend : h.backend = h'.backend
  telemetry : h.telemetry = h'.telemetry
  cursors : h.cursors.Alike (fun _ => True) R h'.cursors

/-- Two operations of whole calls get equally far. -/
inductive Fate.Twins {α : Type} (R : Nat → Nat → Prop) : Fate α → Fate α → Prop where
  | ended {S : Nat → Nat → Prop} {a : α} {h h' : Host} (hS : ∀ i j, R i j → S i j)
      (hh : h.Twins S h') : Twins R (.ended a h) (.ended a h')
  | asked {S : Nat → Nat → Prop} {l : Option (Nat × Nat)} {q : Question}
      {next next' : Except Failure Bool → Operation α} {h h' : Host} (hS : ∀ i j, R i j → S i j)
      (hh : h.Twins S h') (hl : ∀ i j, l = some (i, j) → S i j)
      (hn : ∀ a, Operation.Twin none l (next a) (next' a)) :
      Twins R (.asked q next h) (.asked q next' h')
  | waits : Twins R .waits .waits

/-- Calls that wait for their listeners and will ask for the same things. -/
inductive Pending.Twins (R : Nat → Nat → Prop) : List Pending → List Pending → Prop where
  | nil : Twins R [] []
  | cons {l : Option (Nat × Nat)} {r : Request}
      {next next' : Except Failure Bool → Operation (Except Failure r.Result)}
      {ps ps' : List Pending} (hl : ∀ i j, l = some (i, j) → R i j)
      (hn : ∀ a, Operation.Twin none l (next a) (next' a)) (h : Twins R ps ps') :
      Twins R (⟨r, next⟩ :: ps) (⟨r, next'⟩ :: ps')

/-- Two conversations that stand at the same point. -/
structure Dialogue.Twins (d d' : Dialogue) : Prop where
  thread : d.thread = d'.thread
  stands : ∃ R, d.host.Twins R d'.host ∧ Pending.Twins R d.pending d'.pending

section

variable {α : Type} {R S : Nat → Nat → Prop} {h h' : Host} {t : Thread} {l : Option (Nat × Nat)}

theorem Fate.twins_mono {x y : Fate α} (hS : ∀ i j, R i j → S i j) (h : x.Twins S y) :
    x.Twins R y := by
  cases h with
  | ended hT hh => exact .ended (fun i j hi => hT i j (hS i j hi)) hh
  | asked hT hh hl hn => exact .asked (fun i j hi => hT i j (hS i j hi)) hh hl hn
  | waits => exact .waits

theorem Pending.twins_mono {ps ps' : List Pending} (hS : ∀ i j, R i j → S i j)
    (h : Pending.Twins R ps ps') : Pending.Twins S ps ps' := by
  induction h with
  | nil => exact .nil
  | cons hl hn _ ih => exact .cons (fun i j hi => hS i j (hl i j hi)) hn ih

namespace Host

/-- A call on the cursors is answered alike by twins, or waits on both. -/
theorem twins_onCursors {r : Cursor.Call} (hh : h.Twins R h') (hr : r.About fun _ => True) :
    (h.onCursors t r = none ∧ h'.onCursors t r = none) ∨
    ∃ S a a' g g', (∀ i j, R i j → S i j) ∧ h.onCursors t r = some (a, g) ∧
      h'.onCursors t r = some (a', g') ∧ g.Twins S g' ∧ a.Renamed S a' := by
  unfold onCursors
  rcases Cache.alike_call (t := t) hh.cursors hr with
    ⟨hc, hc'⟩ | ⟨S, a, a', c, c', hS, hc, hc', hcur, ha⟩
  · exact Or.inl ⟨by rw [hc]; rfl, by rw [hc']; rfl⟩
  · exact Or.inr ⟨S, a, a', { h with cursors := c }, { h' with cursors := c' }, hS,
      by rw [hc]; rfl, by rw [hc']; rfl, ⟨hh.destination, hh.backend, hh.telemetry, hcur⟩, ha⟩

/-- Where no slot is named, twins give the same answer, or both wait. -/
theorem twins_answer {e : Effect} (hh : h.Twins R h') (he : e.namesSlot = false) :
    (h.answer t e = none ∧ h'.answer t e = none) ∨
    ∃ S a g g', (∀ i j, R i j → S i j) ∧ h.answer t e = some (a, g) ∧
      h'.answer t e = some (a, g') ∧ g.Twins S g' := by
  cases e with
  | acquire | keep | release => cases he
  | reset k =>
    simp only [answer]
    rcases twins_onCursors (t := t) hh (.reset (k := k) trivial) with
      ⟨hc, hc'⟩ | ⟨S, a, a', g, g', hS, hc, hc', hg, -⟩
    · exact Or.inl ⟨by rw [hc]; rfl, by rw [hc']; rfl⟩
    · exact Or.inr ⟨S, (), g, g', hS, by rw [hc]; rfl, by rw [hc']; rfl, hg⟩
  | evict k =>
    simp only [answer]
    rcases twins_onCursors (t := t) hh (.evict (k := k) trivial) with
      ⟨hc, hc'⟩ | ⟨S, a, a', g, g', hS, hc, hc', hg, -⟩
    · exact Or.inl ⟨by rw [hc]; rfl, by rw [hc']; rfl⟩
    · exact Or.inr ⟨S, (), g, g', hS, by rw [hc]; rfl, by rw [hc']; rfl, hg⟩
  | peek k =>
    simp only [answer]
    rcases twins_onCursors (t := t) hh (.peek (k := k) trivial) with
      ⟨hc, hc'⟩ | ⟨S, a, a', g, g', hS, hc, hc', hg, ha⟩
    · exact Or.inl ⟨by rw [hc]; rfl, by rw [hc']; rfl⟩
    · rw [hc, hc']
      cases ha <;> exact Or.inr ⟨S, _, g, g', hS, rfl, rfl, hg⟩
  | _ =>
    obtain ⟨destination, requested, backend, cursors, logger, telemetry⟩ := h
    obtain ⟨destination', requested', backend', cursors', logger', telemetry'⟩ := h'
    obtain ⟨hd, hb, ht, hc⟩ := hh
    obtain rfl : destination = destination' := hd
    obtain rfl : backend = backend' := hb
    obtain rfl : telemetry = telemetry' := ht
    exact Or.inr ⟨R, _, _, _, fun _ _ hi => hi, rfl, rfl, rfl, rfl, rfl, hc⟩

end Host

/-- Operations that ask for the same things on twins get equally far, to places that are alike. -/
theorem proceed_twins {x y : Operation α} (hx : x.Twin none l y) (hh : h.Twins R h')
    (hl : ∀ i j, l = some (i, j) → R i j) : (x.proceed t h).Twins R (y.proceed t h') := by
  induction hx generalizing R h h' with
  | done => exact .ended (fun _ _ hi => hi) hh
  | @ask l e next next' he hn ih =>
    cases hcall : e.isCallback with
    | true =>
      cases e <;> first | cases hcall; done | exact .asked (fun _ _ hi => hi) hh hl hn
    | false =>
      rw [proceed_perform hcall, proceed_perform hcall]
      rcases Host.twins_answer (t := t) hh he with ⟨ha, ha'⟩ | ⟨S, a, g, g', hS, ha, ha', hg⟩
      · rw [ha, ha']
        exact .waits
      · rw [ha, ha']
        exact Fate.twins_mono hS (ih a hg fun i j hi => hS i j (hl i j hi))
  | acquire _ ih =>
    rw [proceed_perform rfl, proceed_perform rfl]
    simp only [Host.answer]
    rcases Host.twins_onCursors (t := t) hh (.acquire trivial) with
      ⟨hc, hc'⟩ | ⟨S, a, a', g, g', hS, hc, hc', hg, ha⟩
    · rw [hc, hc']
      exact .waits
    · rw [hc, hc']
      cases ha with
      | leased hi =>
        refine Fate.twins_mono hS (ih _ _ _ hg ?_)
        rintro i j ⟨⟩
        exact hi
      | done | shown => exact .waits
  | keep _ ih =>
    rw [proceed_some rfl rfl, proceed_some rfl rfl]
    exact ih ⟨hh.destination, hh.backend, hh.telemetry, Cache.alike_keep hh.cursors (hl _ _ rfl)⟩ hl
  | release _ ih =>
    rw [proceed_some rfl rfl, proceed_some rfl rfl]
    exact ih ⟨hh.destination, hh.backend, hh.telemetry,
      Cache.alike_release hh.cursors (hl _ _ rfl)⟩ (by simp)

namespace Dialogue

variable {d d' : Dialogue} {r : Request}

theorem advance_twins {x y : Operation (Except Failure r.Result)} (ht : d.thread = d'.thread)
    (hh : d.host.Twins R d'.host) (hp : Pending.Twins R d.pending d'.pending)
    (hx : x.Twin none l y) (hl : ∀ i j, l = some (i, j) → R i j) :
    (d.advance r x).1 = (d'.advance r y).1 ∧
      Option.Rel Twins (d.advance r x).2 (d'.advance r y).2 := by
  have hfates := proceed_twins (t := d.thread) hx hh hl
  unfold advance
  rw [← ht]
  generalize x.proceed d.thread d.host = f, y.proceed d.thread d'.host = f' at hfates
  cases hfates with
  | ended hS hh => exact ⟨rfl, .some ⟨rfl, _, hh, Pending.twins_mono hS hp⟩⟩
  | asked hS hh hl hn => exact ⟨rfl, .some ⟨rfl, _, hh, .cons hl hn (Pending.twins_mono hS hp)⟩⟩
  | waits => exact ⟨rfl, .none⟩

/-- The same is heard after a move in both, and they stand at the same point again. -/
theorem hear_twins {m : Move} (h : d.Twins d') :
    (d.hear m).1 = (d'.hear m).1 ∧ Option.Rel Twins (d.hear m).2 (d'.hear m).2 := by
  obtain ⟨ht, R, hh, hp⟩ := h
  cases m with
  | call r =>
    simp only [hear, ← hh.destination]
    exact advance_twins ht hh hp (operation_twin r) (by simp)
  | answer a =>
    obtain ⟨thread, host, pending⟩ := d
    obtain ⟨thread', host', pending'⟩ := d'
    cases hp with
    | nil => exact ⟨rfl, .some ⟨ht, R, hh, .nil⟩⟩
    | cons hl hn hp => exact advance_twins ht hh hp (hn a) hl

/-- Every conversation goes the same way. -/
theorem sights_twins {σ : List Sight → Option Move} {n : Nat} {vs : List Sight} (h : d.Twins d') :
    sights σ n vs d = sights σ n vs d' := by
  induction n generalizing vs d d' with
  | zero => rfl
  | succ n ih =>
    unfold sights
    cases σ vs with
    | none => rfl
    | some m =>
      obtain ⟨hv, hrel⟩ := hear_twins (m := m) h
      simp only
      generalize d.hear m = q, d'.hear m = q' at hv hrel
      obtain ⟨v, e⟩ := q
      obtain ⟨v', e'⟩ := q'
      obtain rfl : v = v' := hv
      cases hrel with
      | none => rfl
      | some h => exact ih h

end Dialogue

end
end DurableTopic.Store

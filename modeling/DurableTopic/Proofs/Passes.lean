import DurableTopic.Proofs.Dialogue
import DurableTopic.Proofs.Fidelity
/-! What a pass leaves on record, whatever it is answered: how it came to its position, what it read,
what it asked its listener, what it kept, and what it complained of. -/
namespace DurableTopic.Store

open Repository (Ledger Scan Trouble)

/-- A question to a listener, and its answer. -/
structure Callback where
  question : Question
  answer : Except Failure Bool

/-- Whether a listener takes what it is offered. -/
def Callback.takes : Callback → Bool
  | ⟨.offer _, .ok true⟩ => true
  | _ => false

/-- How many offers were accepted. -/
def taken (cs : List Callback) : Nat := cs.countP Callback.takes

/-- What a listener that always says yes is asked about some rows: for each of them whether it has
capacity, and then to take it. Nothing is asked behind a row that cannot be read. -/
def rounds (mode : Mode) : List Row → List Question
  | [] => []
  | r :: rows =>
    match offerOf mode r with
    | .ok o => .capacity :: .offer o :: rounds mode rows
    | .error _ => [.capacity]

/-- A listener was asked about some rows in rounds, until it first said no or gave up. -/
structure Heeds (mode : Mode) (rows : List Row) (cs : List Callback) : Prop where
  asked : cs.map (·.question) <+: rounds mode rows
  willing : ∀ c ∈ cs.dropLast, c.answer = .ok true
  through : cs.map (·.question) = rounds mode rows ∨ ∃ c, cs.getLast? = some c ∧ c.answer ≠ .ok true

/-- Why a row cannot be read, if it cannot. -/
def unreadable (mode : Mode) (r : Row) : Option Failure :=
  match offerOf mode r with
  | .ok _ => none
  | .error f => some f

/-- The failure that ends the rounds about some rows: that of the listener, or that of the row that it
had capacity for. -/
def failureOf (mode : Mode) (rows : List Row) (cs : List Callback) : Option Failure :=
  match cs.getLast? with
  | some ⟨_, .error f⟩ => some f
  | some ⟨.capacity, .ok true⟩ => rows[taken cs]?.bind (unreadable mode)
  | _ => none

/-- Whether a call was ended by an object that is no exception. -/
def endedByObject {α : Type} : Except Failure α → Bool
  | .error f => !f.isException
  | .ok _ => false

/-- The rows above a position, each above the one before. -/
def ascending : Watermark → List Row → List Row
  | _, [] => []
  | w, r :: rows => if r.mark.isAhead w then r :: ascending r.mark rows else ascending w rows

section

variable {mode : Mode} {r : Row} {rows : List Row} {cs : List Callback} {a : Except Failure Bool}
  {o : Offer} {f : Failure} {w : Watermark}

theorem endedByObject_elim {e : Option Failure} {n : Nat} :
    endedByObject (e.elim (.ok n) .error) = !e.all Failure.isException := by
  cases e <;> rfl

theorem rounds_ok (h : offerOf mode r = .ok o) :
    rounds mode (r :: rows) = .capacity :: .offer o :: rounds mode rows := by
  rw [rounds, h]

theorem rounds_error (h : offerOf mode r = .error f) : rounds mode (r :: rows) = [.capacity] := by
  rw [rounds, h]

theorem heeds_nil : Heeds mode [] [] := ⟨List.prefix_refl _, by simp, Or.inl rfl⟩

/-- There is no capacity for the next row. -/
theorem heeds_full (ha : a ≠ .ok true) : Heeds mode (r :: rows) [⟨.capacity, a⟩] := by
  refine ⟨?_, by simp, Or.inr ⟨_, rfl, ha⟩⟩
  cases ho : offerOf mode r with
  | ok o => rw [rounds_ok ho]; simp
  | error f => rw [rounds_error ho]; simp

theorem heeds_unreadable (h : offerOf mode r = .error f) :
    Heeds mode (r :: rows) [⟨.capacity, .ok true⟩] :=
  ⟨by simp [rounds_error h], by simp, Or.inl (by simp [rounds_error h])⟩

/-- The next row is not taken. -/
theorem heeds_rejected (h : offerOf mode r = .ok o) (ha : a ≠ .ok true) :
    Heeds mode (r :: rows) [⟨.capacity, .ok true⟩, ⟨.offer o, a⟩] :=
  ⟨by simp [rounds_ok h], by simp, Or.inr ⟨_, rfl, ha⟩⟩

/-- A listener that takes a row is asked about the next one. -/
theorem heeds_taken (h : offerOf mode r = .ok o) (hc : Heeds mode rows cs) :
    Heeds mode (r :: rows) (⟨.capacity, .ok true⟩ :: ⟨.offer o, .ok true⟩ :: cs) := by
  refine ⟨?_, ?_, ?_⟩
  · simpa [rounds_ok h] using hc.asked
  · cases cs with
    | nil => simp
    | cons c cs =>
      have hw := hc.willing
      simpa using hw
  · rcases hc.through with hall | ⟨c, hl, hc⟩
    · exact Or.inl (by simp [rounds_ok h, hall])
    · refine Or.inr ⟨c, ?_, hc⟩
      cases cs with
      | nil => cases hl
      | cons c cs => simpa [List.getLast?_cons_cons] using hl

theorem taken_taken : taken (⟨.capacity, .ok true⟩ :: ⟨.offer o, .ok true⟩ :: cs) = taken cs + 1 := by
  simp [taken, List.countP_cons, Callback.takes]

theorem failureOf_taken :
    failureOf mode (r :: rows) (⟨.capacity, .ok true⟩ :: ⟨.offer o, .ok true⟩ :: cs) =
      failureOf mode rows cs := by
  cases cs with
  | nil => rfl
  | cons c cs =>
    unfold failureOf
    rw [List.getLast?_cons_cons, List.getLast?_cons_cons, taken_taken, List.getElem?_cons_succ]

theorem taken_full : taken [⟨.capacity, a⟩] = 0 := by
  rcases a with f | _ | _ <;> rfl

theorem taken_rejected (ha : a ≠ .ok true) :
    taken [⟨.capacity, .ok true⟩, ⟨.offer o, a⟩] = 0 := by
  rcases a with f | _ | _
  · rfl
  · rfl
  · exact absurd rfl ha

end

/-- What a call leaves on record. -/
structure Minutes where
  leases : List Lease := []
  /-- The positions that were found for the subscriber. -/
  loads : List Watermark := []
  /-- What was read, from which position, and at most how much was asked for. -/
  scans : List (Watermark × Nat × Scan) := []
  callbacks : List Callback := []
  kept : List Watermark := []
  /-- The lines that report an error. -/
  complaints : List Log.Entry := []
  scanFailures : List String := []
  troubles : List Trouble := []

namespace Minutes

/-- An exchange is put on record, but for what went wrong in it. -/
def note (m : Minutes) : Exchange → Minutes
  | ⟨.acquire _, l⟩ => { m with leases := m.leases ++ [l] }
  | ⟨.call (.load ..), .ok w⟩ => { m with loads := m.loads ++ [w] }
  | ⟨.call (.scanAfter _ _ w n), a⟩ => { m with scans := m.scans ++ [(w, n, a)] }
  | ⟨.hasCapacity, a⟩ => { m with callbacks := m.callbacks ++ [⟨.capacity, a⟩] }
  | ⟨.offer o, a⟩ => { m with callbacks := m.callbacks ++ [⟨.offer o, a⟩] }
  | ⟨.keep _ w, _⟩ => { m with kept := m.kept ++ [w] }
  | ⟨.log e, _⟩ => { m with complaints := m.complaints ++ if e.level = .error then [e] else [] }
  | ⟨.countScanFailure d, _⟩ => { m with scanFailures := m.scanFailures ++ [d] }
  | _ => m

def next (m : Minutes) (x : Exchange) : Minutes :=
  match x.trouble? with
  | none => m.note x
  | some t => { m.note x with troubles := m.troubles ++ [t] }

section

variable {m : Minutes} {x : Exchange} {e : Effect} {a : e.Reply}

theorem next_eq : ∃ ts, m.next x = { m.note x with troubles := ts } := by
  unfold next
  split
  · exact ⟨(m.note x).troubles, rfl⟩
  · exact ⟨_, rfl⟩

theorem next_leases (h : ∀ k, e ≠ .acquire k) : (m.next ⟨e, a⟩).leases = m.leases := by
  obtain ⟨ts, hts⟩ := next_eq (m := m) (x := ⟨e, a⟩)
  rw [hts]
  cases e with
  | acquire k => exact absurd rfl (h k)
  | call c => cases c with
    | load => cases a <;> rfl
    | _ => rfl
  | _ => rfl

theorem next_kept (h : ∀ i w, e ≠ .keep i w) : (m.next ⟨e, a⟩).kept = m.kept := by
  obtain ⟨ts, hts⟩ := next_eq (m := m) (x := ⟨e, a⟩)
  rw [hts]
  cases e with
  | keep i w => exact absurd rfl (h i w)
  | call c => cases c with
    | load => cases a <;> rfl
    | _ => rfl
  | _ => rfl

/-- Only the repository is loaded from and read. -/
theorem next_reads (h : ∀ c, e ≠ .call c) :
    (m.next ⟨e, a⟩).loads = m.loads ∧ (m.next ⟨e, a⟩).scans = m.scans := by
  obtain ⟨ts, hts⟩ := next_eq (m := m) (x := ⟨e, a⟩)
  rw [hts]
  cases e with
  | call c => exact absurd rfl (h c)
  | _ => exact ⟨rfl, rfl⟩

/-- Only what a listener is asked is on record as that. -/
theorem next_asked (h : e.isCallback = false) : (m.next ⟨e, a⟩).callbacks = m.callbacks := by
  obtain ⟨ts, hts⟩ := next_eq (m := m) (x := ⟨e, a⟩)
  rw [hts]
  cases e with
  | hasCapacity | offer => cases h
  | call c => cases c with
    | load => cases a <;> rfl
    | _ => rfl
  | _ => rfl

/-- Where no question to a listener is on record, none was asked. -/
theorem next_callbacks (h : (m.next ⟨e, a⟩).callbacks = []) :
    m.callbacks = [] ∧ e.isCallback = false := by
  cases he : e.isCallback with
  | false => exact ⟨next_asked he ▸ h, rfl⟩
  | true =>
    obtain ⟨ts, hts⟩ := next_eq (m := m) (x := ⟨e, a⟩)
    rw [hts] at h
    cases e with
    | hasCapacity | offer => simp [note] at h
    | _ => cases he

end

end Minutes

/-- All rows that were read. -/
def Minutes.read (m : Minutes) : List Row := m.scans.flatMap (·.2.2.rows)

/-- What a call leaves on record by what it was answered. -/
def minutes (p : List Exchange) : Minutes := p.foldl Minutes.next {}

@[simp] theorem minutes_snoc {p : List Exchange} {x : Exchange} :
    minutes (p ++ [x]) = (minutes p).next x := by simp [minutes]

/-- What a failure to read is reported as. -/
def scanFailure (w : Watermark) : Trouble → Failure
  | .raise f => f
  | .report s => .store s.code ("scan after " ++ toString w.sequence ++ ": " ++ s.message)

/-- The line that reports a failure to read. -/
def scanLine (d : String) (k : SubscriberKey) (w : Watermark) (read : Nat) (t : Trouble) : Log.Entry :=
  ⟨.error, "recovery scan failed", [.destination d, .subscriber k, .int "last" w.sequence,
    .int "rows_read" read, .text "error" (scanFailure w t).message]⟩

/-- What the failures to load a position are told under. -/
def loadContext (k : SubscriberKey) : String := "Failed to load last ack for: " ++ k.display

/-- Why a scan did not succeed. -/
def troubleOf (scan : Scan) : Option Trouble := Trouble.of? Trouble.ofStatus? scan.outcome

/-- The scans of a reading, one at most, and what went wrong. -/
inductive Reads : List Scan → List Trouble → Prop where
  | unopened {f : Failure} : Reads [] [.raise f]
  | failed {scan : Scan} {t : Trouble} (h : troubleOf scan = some t) : Reads [scan] [t]
  | uncommitted {scan : Scan} {f : Failure} (h : troubleOf scan = none) : Reads [scan] [.raise f]
  | read {scan : Scan} (h : troubleOf scan = none) : Reads [scan] []

/-- What a pass leaves on record, and how it ends. It fails at once without a client, and where it is
told no position. Otherwise it leads its listener through the rows that it read above its position,
and keeps how far that came unless an object that is no exception ends it. -/
inductive Course (d : String) (k : SubscriberKey) (limit : Nat) (mode : Mode) :
    Minutes → Except Failure Nat → Prop where
  | refused (h : k.client.isEmpty) :
      Course d k limit mode {} (.error (.invalidArgument "client id must not be empty"))
  | unloaded {l : Lease} {ws : List Watermark} {f : Failure} (hl : l.cursor = none) :
      Course d k limit mode { leases := [l], loads := ws, troubles := [.raise f] }
        (.error (f.inContext (loadContext k)))
  | led {l : Lease} {ws : List Watermark} {w : Watermark} {ss : List Scan} {ts : List Trouble}
      {rows : List Row} {cs : List Callback}
      (hl : l.cursor = some w ∧ ws = [] ∨ l.cursor = none ∧ ws = [w]) (hr : Reads ss ts)
      (hrows : rows = ascending w (ss.flatMap (·.rows))) (hc : Heeds mode rows cs) :
      Course d k limit mode
        { leases := [l]
          loads := ws
          scans := ss.map (w, limit, ·)
          callbacks := cs
          kept := ws ++ if (failureOf mode rows cs).all Failure.isException then
            [Ledger.reach w (rows.take (taken cs))] else []
          complaints := ts.map (scanLine d k w (ss.flatMap (·.rows)).length)
          scanFailures := ts.map fun _ => d
          troubles := ts }
        ((failureOf mode rows cs).elim (.ok (taken cs)) .error)

section

variable {d : String} {k : SubscriberKey} {limit : Nat} {mode : Mode} {m : Minutes}
  {o : Option Watermark} {a : Except Failure Nat}

theorem reads_once {ss : List Scan} {ts : List Trouble} (h : Reads ss ts) : ss.length ≤ 1 := by
  cases h <;> simp

/-- Rows that are read in order are all that a pass leads its listener through. -/
theorem course_read {ss : List Scan} {ts : List Trouble} {w : Watermark} (hr : Reads ss ts)
    (h : ∀ x ∈ m.scans, ascending x.1 x.2.2.rows = x.2.2.rows) (hm : m.scans = ss.map (w, limit, ·)) :
    m.read = ss.flatMap (·.rows) ∧ m.read = ascending w (ss.flatMap (·.rows)) := by
  have hread : m.read = ss.flatMap (·.rows) := by rw [Minutes.read, hm, List.flatMap_map]
  have hasc : ∀ scan ∈ ss, ascending w scan.rows = scan.rows := fun scan hs =>
    h _ (hm ▸ List.mem_map_of_mem hs)
  refine ⟨hread, hread.trans ?_⟩
  cases hr with
  | unopened => rfl
  | failed | uncommitted | read => simpa using (hasc _ (List.mem_singleton_self _)).symm

/-- A pass asks its listener about what its one scan read. -/
theorem course_heeds (h : Course d k limit mode m a)
    (hasc : ∀ x ∈ m.scans, ascending x.1 x.2.2.rows = x.2.2.rows) :
    Heeds mode m.read m.callbacks ∧ m.scans.length ≤ 1 ∧ ∀ x ∈ m.scans, x.2.1 = limit := by
  cases h with
  | refused | unloaded => exact ⟨heeds_nil, by simp, by simp⟩
  | @led l ws w ss ts rows cs hl hr hrows hc =>
    rw [(course_read hr hasc rfl).2, ← hrows]
    refine ⟨hc, by simpa using reads_once hr, fun x hx => ?_⟩
    obtain ⟨scan, -, rfl⟩ := List.mem_map.1 hx
    rfl

theorem started_from {l : Lease} {ws : List Watermark} {v w : Watermark}
    (hl : l.cursor = some v ∧ ws = [] ∨ l.cursor = none ∧ ws = [v]) (hfound : l.cursor = o)
    (hloads : ∀ v ∈ ws, v = w) : v = o.getD w := by
  rcases hl with ⟨hl, -⟩ | ⟨hl, rfl⟩
  · rw [← hfound, hl]
    rfl
  · rw [← hfound, hl]
    exact hloads v (by simp)

/-- A pass that found a cursor starts from there, and otherwise from the position that it loaded. -/
theorem course_start {w : Watermark} (h : Course d k limit mode m a)
    (hfound : ∀ l ∈ m.leases, l.cursor = o) (hloads : ∀ v ∈ m.loads, v = w) :
    ∀ x ∈ m.scans, x.1 = o.getD w := by
  cases h with
  | refused | unloaded => simp
  | @led l ws v ss ts rows cs hl hr hrows hc =>
    intro x hx
    obtain ⟨scan, -, rfl⟩ := List.mem_map.1 hx
    exact started_from hl (hfound l (by simp)) hloads

/-- What is kept last is how far the listener came from where the pass started, or where it started
if an object that is no exception ended it. -/
theorem course_kept (h : Course d k limit mode m a)
    (hasc : ∀ x ∈ m.scans, ascending x.1 x.2.2.rows = x.2.2.rows)
    (hfound : ∀ l ∈ m.leases, l.cursor = o) : m.kept.getLast?.or o =
      (o.or m.kept.head?).map fun w =>
        if endedByObject a then w else Ledger.reach w (m.read.take (taken m.callbacks)) := by
  cases h with
  | refused => cases o <;> rfl
  | @unloaded l ws f hl =>
    obtain rfl : none = o := hl.symm.trans (hfound l (by simp))
    rfl
  | @led l ws w ss ts rows cs hl hr hrows hc =>
    rw [(course_read hr hasc rfl).2, ← hrows]
    have hlo : l.cursor = o := hfound l (by simp)
    have hor : ∀ vs : List Watermark, o.or (ws ++ vs).head? = some w := by
      rcases hl with ⟨hl, -⟩ | ⟨hl, rfl⟩ <;>
        rw [← hlo, hl] <;> simp
    rw [hor, endedByObject_elim]
    cases (failureOf mode rows cs).all Failure.isException with
    | true => simp
    | false => rcases hl with ⟨hl, rfl⟩ | ⟨hl, rfl⟩ <;> simp [← hlo, hl]

end

/-- How a pass comes to its position. -/
inductive Started (k : SubscriberKey) (l : Lease) (m : Minutes) :
    Minutes → Except Failure Watermark → Prop where
  | warm {w : Watermark} (hl : l.cursor = some w) : Started k l m m (.ok w)
  | cold {w : Watermark} (hl : l.cursor = none) :
      Started k l m { m with loads := m.loads ++ [w], kept := m.kept ++ [w] } (.ok w)
  | failed {ws : List Watermark} {f : Failure} (hl : l.cursor = none) : Started k l m
      { m with loads := ws, troubles := m.troubles ++ [.raise f] }
      (.error (f.inContext (loadContext k)))

/-- What a pass asks for after some answers: a lease before anything else, and nothing of the repository
once it has asked its listener. -/
def Orderly (p : List Exchange) : Effect → Prop
  | .acquire _ => (minutes p).leases = [] ∧ (minutes p).kept = []
  | .call _ => (minutes p).callbacks = []
  | _ => True

open Op

variable {α : Type} {d : String} {k : SubscriberKey} {limit : Nat} {mode : Mode} {p : List Exchange}
  {m : Minutes} {w : Watermark}

theorem load_minutes (hp : (minutes p).callbacks = []) :
    (inContext (loadContext k) (inTransaction (Op.load d k))).Obeys Orderly (fun q a =>
      match a with
      | .ok w => minutes q = { minutes p with loads := (minutes p).loads ++ [w] }
      | .error g => ∃ ws f, g = f.inContext (loadContext k) ∧ minutes q = { minutes p with
          loads := ws
          troubles := (minutes p).troubles ++ [.raise f] }) p := by
  refine obeys_inTransaction (fun _ => ⟨trivial, trivial⟩) ?_ ?_ ?_
  · rintro q y (g | w) hq
    · obtain ⟨ws, f, hg, hm⟩ := hq
      exact ⟨ws, f, hg, by rw [minutes_snoc, hm]; rfl⟩
    · change minutes (q ++ _) = _
      rw [minutes_snoc, show minutes q = _ from hq]
      rfl
  · exact fun f => ⟨_, f, rfl, by rw [minutes_snoc]; rfl⟩
  · refine ⟨by rw [Orderly, minutes_snoc]; exact hp, ?_⟩
    rintro (f | w)
    · exact ⟨_, f, rfl, by rw [minutes_snoc, minutes_snoc]; rfl⟩
    · refine ⟨trivial, ?_, fun f => ⟨(minutes p).loads ++ [w], f, rfl, ?_⟩⟩
      · change minutes _ = _
        rw [minutes_snoc, minutes_snoc, minutes_snoc]
        rfl
      · rw [minutes_snoc, minutes_snoc, minutes_snoc]
        rfl

theorem startOf_minutes {l : Lease} (hp : (minutes p).callbacks = []) :
    (startOf d k l).Obeys Orderly (fun q a => Started k l (minutes p) (minutes q) a) p := by
  obtain ⟨slot, cursor⟩ := l
  cases cursor with
  | some w => exact .warm rfl
  | none =>
    refine obeys_bind.2 (obeys_mono ?_ (load_minutes hp))
    rintro q (g | w) hq
    · obtain ⟨ws, f, rfl, hm⟩ := hq
      change Started k ⟨slot, none⟩ _ (minutes q) _
      rw [hm]
      exact .failed rfl
    · refine ⟨trivial, fun _ => ?_⟩
      change Started k ⟨slot, none⟩ _ (minutes _) _
      rw [minutes_snoc, show minutes q = _ from hq]
      exact .cold rfl

/-- A scan that did not succeed is reported as its trouble says. -/
theorem require_scan {scan : Scan} {w : Watermark} : (scan.outcome.bind fun s =>
      s.require ("scan after " ++ toString w.sequence)) =
    (troubleOf scan).elim (.ok ()) (.error ∘ scanFailure w) := by
  obtain ⟨rows, f | s⟩ := scan
  · rfl
  · by_cases hs : s.isOk <;>
      simp [troubleOf, Trouble.of?, Trouble.ofStatus?, hs, Except.bind, Status.require, scanFailure]

/-- The scans and the troubles of a reading are put on record, and what it gives follows from them. -/
def Reading (limit : Nat) (w : Watermark) (m m' : Minutes)
    (a : Except Failure (List Row × Except Failure Unit)) : Prop :=
  ∃ ss ts, Reads ss ts ∧
    m' = { m with
      scans := m.scans ++ ss.map (w, limit, ·)
      troubles := m.troubles ++ ts } ∧
    a = .ok (ss.flatMap (·.rows), ts.head?.elim (.ok ()) (.error ∘ scanFailure w))

/-- The transaction of a reading is closed whatever it gave. -/
theorem closing_minutes {scan : Scan} {ts : List Trouble} {e : Except Failure Unit}
    (hr : Reads [scan] ts)
    (hm : minutes p = { m with
      scans := m.scans ++ [(w, limit, scan)]
      troubles := m.troubles ++ ts })
    (he : e = ts.head?.elim (.ok ()) (.error ∘ scanFailure w)) :
    (do Op.ask .close; pure (scan.rows, e) : Op (List Row × Except Failure Unit)).Obeys Orderly
      (fun q a => Reading limit w m (minutes q) a) p := by
  refine ⟨trivial, fun _ => ⟨_, ts, hr, ?_, ?_⟩⟩
  · rw [minutes_snoc, hm]
    rfl
  · simp [he]

theorem readRows_minutes (hp : (minutes p).callbacks = []) :
    (readRows d k w limit).Obeys Orderly (fun q a => Reading limit w (minutes p) (minutes q) a) p := by
  refine obeys_bind.2 (obeys_attempt.2 ⟨trivial, ?_⟩)
  rintro (f | _)
  · refine ⟨_, _, .unopened (f := f), ?_, rfl⟩
    rw [minutes_snoc]
    simp [Minutes.next, Minutes.note, Exchange.trouble?, Trouble.of?]
  refine obeys_bind.2 ⟨by rw [Orderly, minutes_snoc]; exact hp, fun scan => ?_⟩
  generalize hq : p ++ [_] ++ [_] = q
  have hm : minutes q = { minutes p with
      scans := (minutes p).scans ++ [(w, limit, scan)]
      troubles := (minutes p).troubles ++ (troubleOf scan).toList } := by
    rw [← hq, minutes_snoc, minutes_snoc]
    change Minutes.next (minutes p) _ = _
    have ht : (Exchange.mk (.call (.scanAfter d k w limit)) scan).trouble? = troubleOf scan := rfl
    unfold Minutes.next
    rw [ht]
    cases troubleOf scan <;> simp [Minutes.note]
  refine obeys_bind.2 (obeys_attempt.2 (obeys_bind.2 (obeys_ofExcept.2 ?_)))
  have hreq : (scan.outcome.bind fun s => s.require ("scan after " ++ toString w.sequence)) =
      (troubleOf scan).elim (.ok ()) (.error ∘ scanFailure w) := require_scan
  cases ho : scan.outcome with
  | error f =>
    have ht : troubleOf scan = some (.raise f) := by simp [troubleOf, ho, Trouble.of?]
    exact closing_minutes (.failed ht) (by rw [hm, ht]; rfl) rfl
  | ok s =>
    rw [ho] at hreq
    refine obeys_bind.2 (obeys_require.2 ?_)
    rw [show s.require _ = _ from hreq]
    cases ht : troubleOf scan with
    | some t => exact closing_minutes (.failed ht) (by rw [hm, ht]; rfl) rfl
    | none =>
      rw [ht] at hm
      refine ⟨trivial, ?_⟩
      rintro (f | _)
      · refine closing_minutes (.uncommitted ht) ?_ rfl
        rw [minutes_snoc, hm]
        simp [Minutes.next, Minutes.note, Exchange.trouble?, Trouble.of?]
      · exact closing_minutes (.read ht) (by rw [minutes_snoc, hm]; rfl) rfl

/-- A listener is led through some rows from where a pass stands. -/
def Guided (mode : Mode) (m : Minutes) (q : Progress) (rows : List Row) (m' : Minutes)
    (a : Except Failure Progress) : Prop :=
  ∃ cs, Heeds mode rows cs ∧ m' = { m with callbacks := m.callbacks ++ cs } ∧
    a = .ok
      { mark := Ledger.reach q.mark (rows.take (taken cs))
        delivered := q.delivered + taken cs
        failure := failureOf mode rows cs }

section

variable {q : Progress} {r : Row} {rows : List Row} {m' : Minutes} {o : Offer}
  {a : Except Failure Progress}

/-- The pass ends where it stands. -/
theorem guided_stop {cs : List Callback} (hh : Heeds mode rows cs) (ht : taken cs = 0) :
    Guided mode m q rows { m with callbacks := m.callbacks ++ cs }
      (.ok { q with failure := failureOf mode rows cs }) :=
  ⟨cs, hh, rfl, by rw [ht]; rfl⟩

theorem guided_taken (ho : offerOf mode r = .ok o)
    (h : Guided mode
      { m with callbacks := m.callbacks ++ [⟨.capacity, .ok true⟩, ⟨.offer o, .ok true⟩] }
      { q with mark := r.mark, delivered := q.delivered + 1 } rows m' a) :
    Guided mode m q (r :: rows) m' a := by
  obtain ⟨cs, hh, rfl, rfl⟩ := h
  refine ⟨_, heeds_taken ho hh, by simp, ?_⟩
  simp only [taken_taken, failureOf_taken, List.take_succ_cons, Ledger.reach_cons]
  congr 2
  omega

/-- A listener is led through the rows above where the pass stands. -/
theorem offerRows_minutes (hq : q.failure = none) : (offerRows mode q rows).Obeys Orderly
    (fun p' a => Guided mode (minutes p) q (ascending q.mark rows) (minutes p') a) p := by
  induction rows generalizing q p with
  | nil =>
    obtain ⟨mark, delivered, failure⟩ := q
    obtain rfl : failure = none := hq
    exact ⟨[], heeds_nil, by simp, rfl⟩
  | cons r rows ih =>
    unfold offerRows
    split
    · rename_i hr
      rw [ascending, if_neg (by simpa only [Bool.not_eq_true', Bool.not_eq_true] using hr)]
      exact ih hq
    rename_i hr
    rw [ascending, if_pos (by simpa only [Bool.not_eq_true', Bool.not_eq_false] using hr)]
    obtain ⟨mark, delivered, failure⟩ := q
    obtain rfl : failure = none := hq
    -- What ends a pass leaves it where it stands.
    have hstop : ∀ {cs : List Callback} {p' : List Exchange} (f : Option Failure),
        Heeds mode (r :: ascending r.mark rows) cs → taken cs = 0 →
        failureOf mode (r :: ascending r.mark rows) cs = f →
        minutes p' = { minutes p with callbacks := (minutes p).callbacks ++ cs } →
        Guided mode (minutes p) ⟨mark, delivered, none⟩ (r :: ascending r.mark rows) (minutes p')
          (.ok ⟨mark, delivered, f⟩) := by
      rintro cs p' _ hh ht rfl hm
      rw [hm]
      exact guided_stop hh ht
    have hcapacity : ∀ a, minutes (p ++ [⟨.hasCapacity, a⟩]) =
        { minutes p with callbacks := (minutes p).callbacks ++ [⟨.capacity, a⟩] } :=
      fun a => minutes_snoc
    refine obeys_bind.2 (obeys_attempt.2 (obeys_bind.2 ⟨trivial, ?_⟩))
    rintro (f | _ | _)
    · exact hstop (some f) (heeds_full (by simp)) taken_full rfl (hcapacity _)
    · exact hstop none (heeds_full (by simp)) taken_full rfl (hcapacity _)
    refine (deliver_eq ▸ obeys_bind.2 (obeys_ofExcept.2 ?_) : (deliver mode r).Obeys _ _ _)
    cases ho : offerOf mode r with
    | error f =>
      refine hstop (some f) (heeds_unreadable ho) taken_full ?_ (hcapacity _)
      simp [failureOf, taken_full, unreadable, ho]
    | ok o =>
      have hoffer : ∀ a, minutes (p ++ [⟨.hasCapacity, .ok true⟩] ++ [⟨.offer o, a⟩]) =
          { minutes p with callbacks := (minutes p).callbacks ++
            [⟨.capacity, .ok true⟩, ⟨.offer o, a⟩] } := by
        intro a
        rw [minutes_snoc, hcapacity]
        simp [Minutes.next, Minutes.note, Exchange.trouble?]
      refine ⟨trivial, ?_⟩
      rintro (f | _ | _)
      · exact hstop (some f) (heeds_rejected ho (by simp)) (taken_rejected (by simp)) rfl (hoffer _)
      · exact hstop none (heeds_rejected ho (by simp)) (taken_rejected (by simp)) rfl (hoffer _)
      · refine (obeys_mono ?_ (ih (q := ⟨r.mark, delivered + 1, none⟩) rfl) :
          (offerRows mode ⟨r.mark, delivered + 1, none⟩ rows).Obeys _ _ _)
        intro p' a h
        exact guided_taken ho (hoffer _ ▸ h)

/-- How far the listener came is kept before anything else happens, also before an exception. -/
theorem offerAndKeep_minutes {span : Telemetry.Span} {slot : Nat} :
    (offerAndKeep d mode span slot w rows).Obeys Orderly (fun p' a => ∃ cs,
      Heeds mode (ascending w rows) cs ∧
      minutes p' = { minutes p with
        callbacks := (minutes p).callbacks ++ cs
        kept := (minutes p).kept ++ if (failureOf mode (ascending w rows) cs).all Failure.isException
          then [Ledger.reach w ((ascending w rows).take (taken cs))] else [] } ∧
      a = (failureOf mode (ascending w rows) cs).elim (.ok (taken cs)) .error) p := by
  refine obeys_bind.2 (obeys_mono ?_ (offerRows_minutes (q := { mark := w }) rfl))
  rintro p' _ ⟨cs, hh, hm, rfl⟩
  generalize hf : failureOf mode (ascending w rows) cs = o
  refine obeys_bind.2 (obeys_mono (Q := fun q a => a = .ok () ∧ minutes q = { minutes p with
      callbacks := (minutes p).callbacks ++ cs
      kept := (minutes p).kept ++ if o.all Failure.isException
        then [Ledger.reach w ((ascending w rows).take (taken cs))] else [] }) ?_ ?_)
  · rintro q _ ⟨rfl, hm⟩
    cases o with
    | some f => exact ⟨cs, hh, by rw [hm, hf], by rw [hf]; rfl⟩
    | none =>
      refine ⟨trivial, fun _ => ⟨cs, hh, ?_, ?_⟩⟩
      · rw [minutes_snoc, hm, hf]
        rfl
      · rw [hf, Nat.zero_add]
        rfl
  · simp only [settle]
    split
    · refine ⟨trivial, fun _ => ⟨trivial, fun _ => ⟨rfl, ?_⟩⟩⟩
      rw [minutes_snoc, minutes_snoc, hm]
      rfl
    · refine ⟨rfl, ?_⟩
      rw [hm, List.append_nil]

/-- A pass that has its lease keeps to its course. -/
theorem pass_minutes {span : Telemetry.Span} {l : Lease} (hp : minutes p = { leases := [l] }) :
    (pass d k limit mode span l).Obeys Orderly
      (fun p' a => Course d k limit mode (minutes p') a) p := by
  refine obeys_bind.2 (obeys_mono ?_ (startOf_minutes (by rw [hp])))
  rintro q (g | w) hs
  · rw [hp] at hs
    generalize minutes q = m at hs ⊢
    cases hs with
    | failed hl => exact .unloaded hl
  obtain ⟨ws, hl, hm⟩ : ∃ ws, (l.cursor = some w ∧ ws = [] ∨ l.cursor = none ∧ ws = [w]) ∧
      minutes q = { leases := [l], loads := ws, kept := ws } := by
    rw [hp] at hs
    generalize minutes q = m at hs ⊢
    cases hs with
    | warm hl => exact ⟨[], Or.inl ⟨hl, rfl⟩, rfl⟩
    | cold hl => exact ⟨[w], Or.inr ⟨hl, rfl⟩, rfl⟩
  refine obeys_bind.2 ⟨trivial, fun _ => ?_⟩
  refine obeys_bind.2 (obeys_mono ?_ (readRows_minutes (by rw [minutes_snoc, hm]; rfl)))
  rintro q' _ ⟨ss, ts, hr, hm', rfl⟩
  rw [minutes_snoc, hm] at hm'
  -- Behind the reading the listener is led through what was read.
  have hoffer : ∀ {q : List Exchange}, minutes q =
        { leases := [l]
          loads := ws
          scans := ss.map (w, limit, ·)
          kept := ws
          complaints := ts.map (scanLine d k w (ss.flatMap (·.rows)).length)
          scanFailures := ts.map fun _ => d
          troubles := ts } →
      (offerAndKeep d mode span l.slot w (ss.flatMap (·.rows))).Obeys Orderly
        (fun p' a => Course d k limit mode (minutes p') a) q := by
    intro q hm
    refine obeys_mono ?_ offerAndKeep_minutes
    rintro p' a ⟨cs, hh, hm', rfl⟩
    rw [hm', hm]
    exact .led hl hr rfl hh
  rcases ts with _ | ⟨t, _ | ⟨t', ts⟩⟩
  · exact hoffer (by rw [hm']; rfl)
  · refine ⟨trivial, fun _ => ⟨trivial, fun _ =>
      ⟨trivial, fun _ => hoffer ?_⟩⟩⟩
    rw [minutes_snoc, minutes_snoc, minutes_snoc, hm']
    rfl
  · cases hr

/-- What a pass asks for and leaves on record, whatever it is answered. -/
theorem recoverNext_minutes : (recoverNext d k limit mode).Obeys Orderly
    (fun p a => Course d k limit mode (minutes p) a) [] := by
  refine obeys_bind.2 (obeys_validate (fun h => .refused h) ?_)
  refine obeys_bind.2 ⟨trivial, fun span => obeys_bind.2 ⟨⟨rfl, rfl⟩, fun l => ?_⟩⟩
  refine obeys_bind.2 (obeys_attempt.2 (obeys_mono ?_ (pass_minutes rfl)))
  intro p a hc
  refine ⟨trivial, fun _ => ⟨trivial, fun _ => obeys_ofExcept.2 ?_⟩⟩
  rw [minutes_snoc, minutes_snoc]
  exact hc

end

end DurableTopic.Store

import DurableTopic.Proofs.Weather
/-! What a pass leaves behind in any weather: what its listener was asked, how it ended, where the cursor
is, and what was complained of. -/
namespace DurableTopic.Store

open Cursor (Thread Cache)
open Repository (Ledger Trouble)

/-- What is offered, if something is. -/
def Question.offer? : Question → Option Offer
  | .capacity => none
  | .offer o => some o

/-- What a listener was offered. -/
def offered (cs : List Callback) : List Offer := cs.filterMap (·.question.offer?)

/-- A pass led its listener from a position through what it read of some messages. -/
structure Led {σ : Type} (R : Responder σ) (y : σ) (d : String) (k : SubscriberKey) (mode : Mode)
    (w : Watermark) (batch : List Row) (m : Minutes) (a : Except Failure Nat) : Prop where
  read : m.read <+: batch
  ascending : ascending w m.read = m.read
  whole : m.troubles = [] → m.read = batch
  answers : m.callbacks = R.answers y (m.callbacks.map (·.question))
  heeds : Heeds mode m.read m.callbacks
  offers : (offered m.callbacks).map .ok <+: m.read.map (offerOf mode)
  result : a = (failureOf mode m.read m.callbacks).elim (.ok (taken m.callbacks)) .error
  kept : endedByObject a = false →
    m.kept.getLast? = some (Ledger.reach w (m.read.take (taken m.callbacks)))
  unkept : endedByObject a → ∀ v ∈ m.kept, v = w
  once : m.troubles.length ≤ 1
  complaints : m.complaints = m.troubles.map (scanLine d k w m.read.length)
  scanFailures : m.scanFailures = m.troubles.map fun _ => d

section

variable {σ : Type} {R : Responder σ} {y : σ} {d : String} {k : SubscriberKey} {limit : Nat}
  {mode : Mode} {w : Watermark} {rows batch : List Row} {cs : List Callback} {m : Minutes}
  {a : Except Failure Nat} {b s s' : System} {tr tr₀ : List Event} {past : List Exchange}
  {o : Option Watermark} {t : Thread}

theorem rounds_offers :
    ((rounds mode rows).filterMap Question.offer?).map .ok <+: rows.map (offerOf mode) := by
  induction rows with
  | nil => exact List.prefix_refl _
  | cons r rows ih =>
    cases ho : offerOf mode r with
    | ok q =>
      rw [rounds_ok ho, List.map_cons, ho]
      exact (List.prefix_cons_inj _).2 ih
    | error f =>
      rw [rounds_error ho]
      exact List.nil_prefix

/-- What a listener is offered are the first of the rows, each once. -/
theorem heeds_offers (h : Heeds mode rows cs) :
    (offered cs).map .ok <+: rows.map (offerOf mode) := by
  have hasked := (h.asked.filterMap Question.offer?).map (Except.ok (ε := Failure))
  rw [List.filterMap_map] at hasked
  exact hasked.trans rounds_offers

/-- No pass fails over rows that can be read with a listener that does not. -/
theorem failureOf_calm (hrows : ∀ r ∈ rows, ∃ q, offerOf mode r = .ok q)
    (hcs : ∀ c ∈ cs, ∃ x, c.answer = .ok x) : failureOf mode rows cs = none := by
  unfold failureOf
  split
  · rename_i f hlast
    obtain ⟨x, hx⟩ := hcs _ (List.mem_of_getLast? hlast)
    cases hx
  · cases hr : rows[taken cs]? with
    | none => rfl
    | some r =>
      obtain ⟨q, hq⟩ := hrows r (List.mem_of_getElem? hr)
      simp [unreadable, hq]
  · rfl

/-- A responder that never fails is on record with no failure. -/
theorem answers_calm (h : ∀ q y, ∃ x, (R q y).1 = .ok x) {qs : List Question} :
    ∀ c ∈ R.answers y qs, ∃ x, c.answer = .ok x := by
  induction qs generalizing y with
  | nil => simp [Responder.answers]
  | cons q qs ih => exact List.forall_mem_cons.2 ⟨h q y, ih⟩

theorem answers_question {qs : List Question} : (R.answers y qs).map (·.question) = qs := by
  induction qs generalizing y with
  | nil => rfl
  | cons q qs ih => rw [Responder.answers, List.map_cons, ih]

/-- A subscriber without a client has no cursor. -/
theorem unnamed_run (hb : b.Opened) (h : Run Step b tr s) (hk : k.client.isEmpty) :
    s.host.cursors.mapped.find? k = none := by
  induction h with
  | nil => rw [hb.cursors]; rfl
  | @snoc s₁ s₂ tr ev h he ih =>
    have hs := sound_run (sound_opened hb) h
    cases he with
    | @ask t n r past e next below a h' hst hr =>
      have hobeys : (Operation.perform e next).Obeys r.Behaves (r.Closes b.host.destination) past :=
        behaves_run hb h t ⟨n, r, past, .perform e next⟩ (mem_top hst)
      have hbehaves : r.Behaves past e := hobeys.1
      have hbatch : r.batches k = false := Bool.eq_false_iff.2 fun hbk => by
        cases r with
        | recoverNext j l md =>
          obtain rfl : j = k := by simpa [Request.batches] using hbk
          exact absurd hbehaves.1 (by simp [hk])
        | _ => cases hbk
      cases moves_of_ask (k := k) hs hst (ask_granted hs hst hr).2.2.2 with
      | aside _ hslot => exact hslot.mapped.trans ih
      | reset _ hmap => exact hmap.trans ih
      | evict _ hmap => exact hmap
      | _ => exact absurd hbatch (by simp_all)
    | _ => exact ih

theorem named_of_shows (hb : b.Opened) (h : Run Step b tr s) (hshows : s.host.cursors.Shows k (some w)) :
    k.client ≠ "" := by
  intro hk
  have hmap := unnamed_run hb h (k := k) (by simp [hk])
  have hstands := Cache.stands_of_shows (sound_run (sound_opened hb) h).cursors hshows
  have hnone : s.host.cursors.shown k = none := by simp [Cache.shown, hmap]
  cases hnone.symm.trans hstands.shown

/-- Where the cursor is behind a pass that led its listener from it. -/
theorem left_of_led (h : Led R y d k mode w batch m a) : m.kept.getLast?.or (some w) =
    some (if endedByObject a then w else Ledger.reach w (m.read.take (taken m.callbacks))) := by
  cases ha : endedByObject a with
  | false => simp [h.kept ha]
  | true =>
    cases hl : m.kept.getLast? with
    | none => rfl
    | some v => simp [h.unkept ha v (List.mem_of_getLast? hl)]

/-- A pass that came to its position led its listener. -/
theorem led_of_passed (h : Passed k limit mode o s tr s' past a) {qs : List Question}
    (hasked : (minutes past).callbacks = R.answers y qs) (hk : k.client ≠ "")
    (hloaded : o = none → (minutes past).kept ≠ []) :
    Led R y s.host.destination k mode (o.getD (s.host.ledger.acked k))
      (s.host.backend.repository.first limit
        (s.host.ledger.unread k (o.getD (s.host.ledger.acked k)))) (minutes past) a := by
  obtain ⟨hcourse, hfound, hloads, hscans, -⟩ := h
  generalize minutes past = m at *
  cases hcourse with
  | refused he => exact absurd (String.isEmpty_iff.1 he) hk
  | @unloaded l _ _ hl => exact absurd rfl (hloaded (hl ▸ (hfound l (by simp)).symm))
  | @led l ws v ss ts rows cs hl hr hrows hc =>
    obtain rfl := started_from hl (hfound l (by simp)) hloads
    generalize o.getD (s.host.ledger.acked k) = w at *
    have hsnap : ∀ scan ∈ ss, Snapshot s.host k limit w scan := fun scan hs =>
      hscans _ (List.mem_map_of_mem hs)
    obtain ⟨hread, hasc⟩ := course_read hr (fun x hx => (hscans x hx).ascending) rfl
    rw [← hrows] at hasc
    obtain rfl : ss.flatMap (·.rows) = rows := hread.symm.trans hasc
    constructor
    all_goals simp only [hread]
    case read =>
      cases hr with
      | unopened => exact List.nil_prefix
      | failed | uncommitted | read =>
        rw [List.flatMap_singleton]
        exact (hsnap _ (List.mem_singleton_self _)).first
    case ascending => exact hrows.symm
    case whole =>
      intro hts
      cases hr with
      | @read scan ht =>
        rw [List.flatMap_singleton]
        exact (hsnap scan (List.mem_singleton_self scan)).whole ht
      | _ => cases hts
    case answers =>
      have hasked : cs = R.answers y qs := hasked
      rw [hasked, answers_question]
    case heeds => exact hc
    case offers => exact heeds_offers hc
    case kept =>
      intro ha
      rw [endedByObject_elim, Bool.not_eq_false'] at ha
      simp [ha]
    case unkept =>
      intro ha
      rw [endedByObject_elim, Bool.not_eq_true'] at ha
      rcases hl with ⟨-, rfl⟩ | ⟨-, rfl⟩ <;> simp [ha]
    case once => cases hr <;> simp

/-- Words that hold a limit and number all messages let the first messages through, up to the limit. -/
theorem first_take {r : Repository} (hl : limit < UInt64.size)
    (hrows : limit < 0x8000000000000000 ∨ rows.length < 0x8000000000000000) :
    r.first limit rows = rows.take limit := by
  cases r with
  | memory => rfl
  | embedded => exact Repository.Embedded.first_eq hl hrows

/-- No limit lets anything through but the first messages. -/
theorem first_within {r : Repository} : r.first limit rows <+: rows := by
  cases r with
  | memory => exact List.take_prefix _ _
  | embedded =>
    simp only [Repository.first, Repository.Embedded.first, Repository.Embedded.limited]
    split
    · exact List.nil_prefix
    · split
      · exact List.prefix_refl _
      · exact List.take_prefix _ _

theorem length_unread {l : Ledger} : (l.unread k w).length ≤ l.rows.length := by
  unfold Ledger.unread
  cases l.record k with
  | none => exact Nat.zero_le _
  | some x => exact List.length_filter_le _ _

/-- A pass is over in any weather, and what is known of it is known of the pass that threads make. -/
theorem sit_passed (hb : b.Opened) (ht : b.host.backend.repository.Tidy b.host.destination)
    (h : Run Step b tr s) (hr : s.Ready k t) (ho : s.host.cursors.Shows k o) (limit : Nat) (mode : Mode)
    (R : Responder σ) (W : Weather) (y : σ) :
    ∃ (a : Except Failure Nat) (x : Sitting σ),
      (recoverNext s.host.destination k limit mode).run.sit R W t ⟨s.host, y, []⟩ = some (a, x) ∧
      (∃ qs, (minutes x.past).callbacks = R.answers y qs) ∧
      x.host.cursors.Shows k ((minutes x.past).kept.getLast?.or o) ∧
      ∃ s', Passed k limit mode o s [] s' x.past a := by
  obtain ⟨a, x, tr, s', hsit, hpass, hcalls, hhost⟩ :=
    sit_passing (sound_run (sound_opened hb) h) hr limit mode R W y
  obtain ⟨qs, hqs, -⟩ := sit_answers hsit
  have hpassed := passing_passed hb ht h ho hpass
  obtain ⟨hcourse, hfound, hloads, hscans, hcursor⟩ := hpassed
  rw [hcalls] at hcursor
  exact ⟨a, x, hsit, ⟨qs, hqs⟩, hhost ▸ hcursor, s', hcourse, hfound, hloads, hscans, hcursor⟩

/-- A pass from a cursor, in any weather, is over and has led its listener through the first messages
above the cursor: in rounds, each message once and no more of them than asked for, until the listener
first says no or gives up. It counts what was accepted, and leaves the cursor at the last of it also
when it fails, which only its listener and messages that cannot be read make it do; but where the
listener throws an object that is no exception, the cursor stays where it was. A failure to read is told
to nobody but the log and the telemetry, once, and what was read before it is offered. -/
theorem listener_is_led (hb : b.Opened) (ht : b.host.backend.repository.Tidy b.host.destination)
    (h : Run Step b tr s) (hr : s.Ready k t) (hw : s.host.cursors.Shows k (some w)) (mode : Mode)
    (hl : limit < UInt64.size)
    (hrows : limit < 0x8000000000000000 ∨ s.host.ledger.rows.length < 0x8000000000000000)
    (R : Responder σ) (W : Weather) (y : σ) :
    ∃ (a : Except Failure Nat) (x : Sitting σ),
      (recoverNext s.host.destination k limit mode).run.sit R W t ⟨s.host, y, []⟩ = some (a, x) ∧
      Led R y s.host.destination k mode w ((s.host.ledger.unread k w).take limit) (minutes x.past) a ∧
      (offered (minutes x.past).callbacks).length ≤ limit ∧
      x.host.cursors.Shows k (some (if endedByObject a then w else
        Ledger.reach w ((minutes x.past).read.take (taken (minutes x.past).callbacks)))) := by
  obtain ⟨a, x, hsit, ⟨qs, hqs⟩, hcursor, s', hpassed⟩ := sit_passed hb ht h hr hw limit mode R W y
  have hled := led_of_passed hpassed hqs (named_of_shows hb h hw) nofun
  rw [Option.getD_some, first_take hl (hrows.imp id (Nat.lt_of_le_of_lt length_unread))] at hled
  refine ⟨a, x, hsit, hled, ?_, ?_⟩
  · have hoffers := hled.offers.length_le
    rw [List.length_map, List.length_map] at hoffers
    exact Nat.le_trans hoffers (Nat.le_trans hled.read.length_le (List.length_take_le _ _))
  · exact left_of_led hled ▸ hcursor

end

/-- A fault that hits the first call of its kind. -/
def Weather.once (p : Repository.Point) (f : Failure) (rows : Nat) (hf : f.isException) :
    Weather where
  faults n := if n = 0 then
    some { table := Assoc.put ∅ p { trouble := .raise f, times := some 1, rows } } else none
  honest n fs h := by
    split at h
    · cases h
      exact Repository.honest_raising rfl hf
    · cases h
  raises := raises_none

/-- A listener that takes so many messages. -/
def counting (n : Nat) : Responder Nat
  | .capacity, y => (.ok (y < n), y)
  | .offer _, y => (.ok true, y + 1)

/-- The subscriber has taken the first of two messages. -/
def takesFirst : List Choice := [.call "main" (.recoverNext replayed 1 .reference),
  .hear "main" (.ok true), .hear "main" (.ok true)]

def System.tookFirst : System := (System.toReplay.play takesFirst).2

theorem System.run_tookFirst : ∃ tr, Run Step (System.fresh "orders") tr System.tookFirst ∧
    ∀ e ∈ tr, e.thread? = none ∨ e.thread? = some "main" :=
  ⟨_, run_trans (System.play_run _) (System.play_run takesFirst), by decide +kernel⟩

theorem second_is_led : ∃ x,
    (recoverNext "orders" replayed 5 .reference).run.sit (counting 3)
      (.once .scanAfter (.runtime "down") 1 rfl) "main" ⟨System.tookFirst.host, 0, []⟩ =
        some (.ok 1, x) ∧
    Led (counting 3) 0 "orders" replayed .reference ⟨1, 0⟩
      ((System.tookFirst.host.ledger.unread replayed ⟨1, 0⟩).take 5) (minutes x.past) (.ok 1) ∧
    (minutes x.past).troubles = [.raise (.runtime "down")] ∧
    x.host.cursors.Shows replayed (some ⟨2, 0⟩) := by
  obtain ⟨tr, hrun, hown⟩ := System.run_tookFirst
  have hready : System.tookFirst.Ready replayed "main" :=
    ready_of_alone (System.opened_fresh "orders") hrun hown
      (List.isEmpty_iff.1 (by decide +kernel)) (by decide +kernel)
  have hmap : System.tookFirst.host.cursors.mapped.find? replayed = some 0 := by decide +kernel
  have hslot : System.tookFirst.host.cursors.slot 0 = { watermark := some ⟨1, 0⟩ } := by decide +kernel
  have hshows : System.tookFirst.host.cursors.Shows replayed (some ⟨1, 0⟩) := by
    simpa [hslot] using Cache.shows_of_slot hmap (by rw [hslot])
  have hd : System.tookFirst.host.destination = "orders" := by decide +kernel
  have hseen : ((recoverNext "orders" replayed 5 .reference).run.sit (counting 3)
      (.once .scanAfter (.runtime "down") 1 rfl) "main" ⟨System.tookFirst.host, 0, []⟩).map
      (fun p => (p.1.toOption, (minutes p.2.past).troubles,
        Ledger.reach ⟨1, 0⟩ ((minutes p.2.past).read.take (taken (minutes p.2.past).callbacks)))) =
      some (some 1, [.raise (.runtime "down")], ⟨2, 0⟩) := by
    decide +kernel
  obtain ⟨a, x, hsit, hled, -, hcursor⟩ := listener_is_led (System.opened_fresh "orders")
    Repository.tidy_inMemory hrun hready hshows .reference (show 5 < UInt64.size by decide)
    (Or.inl (by decide)) (counting 3) (.once .scanAfter (.runtime "down") 1 rfl) 0
  rw [hd] at hsit hled
  rw [hsit] at hseen
  obtain ⟨ha, htrouble, hreach⟩ : a.toOption = some 1 ∧ _ ∧ _ := by
    simpa only [Option.map_some, Option.some.injEq, Prod.mk.injEq] using hseen
  rw [hreach] at hcursor
  cases a with
  | error f => cases ha
  | ok n =>
    obtain rfl : n = 1 := Option.some.inj ha
    exact ⟨x, hsit, hled, htrouble, hcursor⟩

/-- A listener that takes one message, and throws an object that is no exception at the next. -/
def takesOne : Responder Nat
  | .capacity, y => (.ok true, y)
  | .offer _, 0 => (.ok true, 1)
  | .offer _, y + 1 => (.error (.listener .object), y + 1)

/-- The subscriber has a cursor below the two messages. -/
def System.warmed : System :=
  (System.toReplay.play [.call "main" (.recoverNext replayed 0 .reference)]).2

/-- The cursor is not at the message that was accepted, but where it was. -/
theorem taken_behind_the_cursor : ∃ a x,
    (∃ tr, Run Step (System.fresh "orders") tr System.warmed) ∧
    System.warmed.Ready replayed "main" ∧
    System.warmed.host.cursors.Shows replayed (some .start) ∧
    (recoverNext "orders" replayed 5 .reference).run.sit takesOne .clear "main"
      ⟨System.warmed.host, 0, []⟩ = some (a, x) ∧
    endedByObject a ∧ taken (minutes x.past).callbacks = 1 ∧
    Ledger.reach .start ((minutes x.past).read.take 1) = ⟨1, 0⟩ ∧
    x.host.cursors.Shows replayed (some .start) := by
  have hrun : Run Step (System.fresh "orders") _ System.warmed :=
    run_trans (System.play_run _) (System.play_run _)
  have hready : System.warmed.Ready replayed "main" :=
    ready_of_alone (System.opened_fresh "orders") hrun (by decide +kernel)
      (List.isEmpty_iff.1 (by decide +kernel)) (by decide +kernel)
  have hwarm : (System.warmed.host.cursors.slot 0).watermark = some .start := by decide +kernel
  have hseen : ((recoverNext "orders" replayed 5 .reference).run.sit takesOne .clear "main"
      ⟨System.warmed.host, 0, []⟩).map (fun p => (endedByObject p.1,
        taken (minutes p.2.past).callbacks, Ledger.reach .start ((minutes p.2.past).read.take 1),
        p.2.host.cursors.mapped.find? replayed, p.2.host.cursors.slot 0)) =
      some (true, 1, ⟨1, 0⟩, some 0, { watermark := some .start }) := by
    decide +kernel
  obtain ⟨⟨a, x⟩, hsit, hx⟩ := Option.map_eq_some_iff.1 hseen
  obtain ⟨ha, htaken, hreach, hmap, hslot⟩ : endedByObject a = true ∧ _ ∧ _ ∧ _ ∧ _ := by
    simpa only [Prod.mk.injEq] using hx
  refine ⟨a, x, ⟨_, hrun⟩, hready, ?_, hsit, ha, htaken, hreach, ?_⟩
  · exact hwarm ▸ Cache.shows_of_slot (by decide +kernel) (by decide +kernel)
  · simpa [hslot] using Cache.shows_of_slot hmap (by rw [hslot])

section

variable {σ : Type} {k : SubscriberKey} {limit : Nat} {mode : Mode} {b s : System} {tr : List Event}
  {o : Option Watermark} {t : Thread}

/-- A pass whose listener does not fail, over messages that can be read, fails in any weather only where
its position cannot be loaded. That failure is told to the caller and to nobody else, and leaves no
cursor. Any other failure of the repository is told to nobody but the log and the telemetry, once, and
the pass gives the number of messages that were accepted and keeps the cursor at the last of them. -/
theorem only_loading_fails (hb : b.Opened)
    (ht : b.host.backend.repository.Tidy b.host.destination) (h : Run Step b tr s) (hr : s.Ready k t)
    (ho : s.host.cursors.Shows k o) (hk : k.client ≠ "") {v : Watermark}
    (hv : v = o.getD (s.host.ledger.acked k))
    (hrows : ∀ r ∈ s.host.ledger.unread k v, ∃ q, offerOf mode r = .ok q) (limit : Nat) (R : Responder σ)
    (hR : ∀ q y, ∃ x, (R q y).1 = .ok x) (W : Weather) (y : σ) :
    ∃ (a : Except Failure Nat) (x : Sitting σ),
      (recoverNext s.host.destination k limit mode).run.sit R W t ⟨s.host, y, []⟩ = some (a, x) ∧
      ((o = none ∧ (∃ f, (minutes x.past).troubles = [.raise f] ∧
            a = .error (f.inContext (loadContext k))) ∧
          (minutes x.past).scans = [] ∧ (minutes x.past).callbacks = [] ∧
          (minutes x.past).complaints = [] ∧ (minutes x.past).scanFailures = [] ∧
          x.host.cursors.Shows k none) ∨
        (a = .ok (taken (minutes x.past).callbacks) ∧
          Led R y s.host.destination k mode v
            (s.host.backend.repository.first limit (s.host.ledger.unread k v)) (minutes x.past) a ∧
          x.host.cursors.Shows k (some
            (Ledger.reach v ((minutes x.past).read.take (taken (minutes x.past).callbacks)))))) := by
  subst hv
  obtain ⟨a, x, hsit, ⟨qs, hqs⟩, hcursor, s', hpassed⟩ := sit_passed hb ht h hr ho limit mode R W y
  refine ⟨a, x, hsit, ?_⟩
  by_cases hcold : o = none ∧ (minutes x.past).kept = []
  · obtain ⟨rfl, hkept⟩ := hcold
    have hcourse := hpassed.course
    have hfound := hpassed.found
    generalize minutes x.past = m at hcourse hfound hkept hcursor ⊢
    cases hcourse with
    | refused he => exact absurd (String.isEmpty_iff.1 he) hk
    | unloaded => exact Or.inl ⟨rfl, ⟨_, rfl, rfl⟩, rfl, rfl, rfl, rfl, hcursor⟩
    | @led l ws _ _ _ _ _ hl =>
      rcases hl with ⟨hl, -⟩ | ⟨-, rfl⟩
      · cases hl.symm.trans (hfound l (List.mem_singleton_self l))
      · cases hkept
  · have hled := led_of_passed hpassed hqs hk fun ho hkept => hcold ⟨ho, hkept⟩
    have hfail : failureOf mode (minutes x.past).read (minutes x.past).callbacks = none := by
      exact failureOf_calm (fun r hr => hrows r ((hled.read.trans first_within).subset hr))
        (hqs ▸ answers_calm hR)
    have ha : a = .ok (taken (minutes x.past).callbacks) := by
      rw [hled.result, hfail]
      rfl
    rw [hled.kept (ha ▸ rfl)] at hcursor
    exact Or.inr ⟨ha, hled, hcursor⟩

end

theorem unloaded_fails : ∃ x,
    (recoverNext "orders" replayed 5 .reference).run.sit (counting 3)
      (.once .load (.runtime "down") 0 rfl) "main" ⟨System.toReplay.host, 0, []⟩ =
        some (.error (.store .internalError "Failed to load last ack for: A:NOT_SET: down"), x) ∧
    (minutes x.past).troubles = [.raise (.runtime "down")] ∧
    (minutes x.past).callbacks = [] ∧ (minutes x.past).complaints = [] ∧
    (minutes x.past).scanFailures = [] ∧ x.host.cursors.Shows replayed none := by
  have hrun : Run Step (System.fresh "orders") _ System.toReplay := System.play_run _
  have hready : System.toReplay.Ready replayed "main" :=
    ready_of_alone (System.opened_fresh "orders") hrun (by decide +kernel)
      (List.isEmpty_iff.1 (by decide +kernel)) (by decide +kernel)
  have hrows : ∀ r ∈ System.toReplay.host.ledger.unread replayed
      (System.toReplay.host.ledger.acked replayed), ∃ q, offerOf .reference r = .ok q := by
    have h : ∀ r ∈ System.toReplay.host.ledger.unread replayed
        (System.toReplay.host.ledger.acked replayed), (offerOf .reference r).toOption.isSome := by
      decide +kernel
    intro r hr
    cases ho : offerOf .reference r with
    | ok q => exact ⟨q, rfl⟩
    | error f => exact absurd (h r hr) (by simp [ho, Except.toOption])
  have hcalm : ∀ q y, ∃ x, (counting 3 q y).1 = .ok x := fun q y => by cases q <;> exact ⟨_, rfl⟩
  have hd : System.toReplay.host.destination = "orders" := by decide +kernel
  have hseen : ((recoverNext "orders" replayed 5 .reference).run.sit (counting 3)
      (.once .load (.runtime "down") 0 rfl) "main" ⟨System.toReplay.host, 0, []⟩).map
      (fun p => (p.1.toOption, (minutes p.2.past).troubles)) =
      some (none, [.raise (.runtime "down")]) := by
    decide +kernel
  obtain ⟨a, x, hsit, h⟩ := only_loading_fails (System.opened_fresh "orders")
    Repository.tidy_inMemory hrun hready replay_cold (by decide) rfl hrows 5 (counting 3) hcalm
    (.once .load (.runtime "down") 0 rfl) 0
  rw [hd] at hsit
  rw [hsit] at hseen
  obtain ⟨ha, htrouble⟩ : a.toOption = none ∧ _ := by
    simpa only [Option.map_some, Option.some.injEq, Prod.mk.injEq] using hseen
  rcases h with ⟨-, ⟨f, hf, rfl⟩, -, hcallbacks, hcomplaints, hfailures, hcursor⟩ | ⟨rfl, -⟩
  · obtain rfl : f = .runtime "down" := by simpa using hf.symm.trans htrouble
    exact ⟨x, hsit, htrouble, hcallbacks, hcomplaints, hfailures, hcursor⟩
  · cases ha

end DurableTopic.Store

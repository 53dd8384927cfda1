import DurableTopic.Proofs.Backends
import DurableTopic.Proofs.Moves
import DurableTopic.Proofs.Neighbours
/-! Subscribers that a backend keeps under different names see nothing of each other, and destinations
nothing of other destinations. A database tells names apart by what stands before the first NUL. -/
namespace DurableTopic

namespace Repository

/-- How a backend keeps text tells how it cuts scans short. -/
theorem first_of_spell {r r' : Repository} (h : r'.spell = r.spell) : r'.first = r.first := by
  have hne : (id : String → String) ≠ Text.beforeNul := fun he =>
    absurd (congrFun he "\x00") (by decide)
  cases r <;> cases r'
  · rfl
  · exact absurd h.symm hne
  · exact absurd h hne
  · rfl

namespace Ledger

variable {spell : String → String} {k j : SubscriberKey} {l l' : Ledger} {d : String}

theorem mayCall_key {r : Store.Request} {c : Call} (h : r.mayCall d c) (hk : c.key? = some k) :
    r.key? = some k := by
  cases r <;> cases c <;> simp_all [Store.Request.mayCall, Store.Request.key?, Call.key?]

theorem update_apart {f : Option Subscription → Option Subscription}
    (h : k.spelled spell ≠ j.spelled spell) : l.AgreeOn (· = k) (l.update spell j f) where
  rows := rfl
  records := by
    rintro _ rfl
    exact if_neg h

/-- What is done for a subscriber leaves the messages and the records of others as they are. -/
theorem evolves_apart {r : Store.Request} (h : Evolves spell (r.mayCall d) l l')
    (hr : r.key? = some j) (hjk : k.spelled spell ≠ j.spelled spell) : l.AgreeOn (· = k) l' := by
  induction h with
  | refl => exact agreeOn_refl
  | @call l₁ l₂ c a _ hc ha ih =>
    refine agreeOn_trans ih ?_
    have hkey : ∀ i, c.key? = some i → i = j := fun i hi =>
      Option.some.inj ((mayCall_key hc hi).symm.trans hr)
    cases c with
    | append row => cases r <;> simp_all [Store.Request.mayCall, Store.Request.key?]
    | persist d i w =>
      obtain rfl := hkey i rfl
      rcases wrote_or_same ha with rfl | rfl
      · exact update_apart hjk
      · exact agreeOn_refl
    | put x b =>
      obtain rfl := hkey x.key rfl
      rcases wrote_or_same ha with rfl | rfl
      · exact update_apart hjk
      · exact agreeOn_refl
    | delete d i =>
      obtain rfl := hkey i rfl
      rcases wrote_or_same ha with rfl | rfl
      · exact update_apart hjk
      · exact agreeOn_refl
    | _ => exact answers_read ha rfl ▸ agreeOn_refl

end Ledger
end Repository
namespace Store

open Cursor (Thread Cache)
open Repository (Call Ledger)

/-- A backend taken twice, for calls about some subscribers. -/
def sameFor (κ : Keeping) (about seen : SubscriberKey → Prop) (n : Nat)
    (hseen : ∀ j : SubscriberKey, seen (j.spelled κ.spell) →
      ∃ k, about k ∧ k.spelled κ.spell = j.spelled κ.spell) : Likeness where
  left := κ
  right := κ
  destination := rfl
  allows r := ∀ k, r.key? = some k → about k
  seen := seen
  bound := n
  like _ := Ledger.AgreeOn about
  grows _ _ _ _ _ h := h
  answers _ l m r c _ _ _ _ hr hc _ h hl hm ha hb := by
    refine Ledger.agreeOn_answers (σ := κ.spell) (τ := κ.spell) (f := κ.first) (g := κ.first)
      ⟨fun k hk => hr k (Request.makes_key hc hk), fun _ _ => rfl, fun _ _ => rfl,
        fun _ _ _ _ _ _ _ => rfl⟩ h (fun x hx => ⟨?_, ?_⟩) ha hb
    · rintro ⟨j, hj⟩
      obtain ⟨k, hk, hkj⟩ := hseen j (hl.own j x hj ▸ hx)
      exact ⟨k, by rw [h.records k hk, hl.same k j hkj, hj]⟩
    · rintro ⟨j, hj⟩
      obtain ⟨k, hk, hkj⟩ := hseen j (hm.own j x hj ▸ hx)
      exact ⟨k, by rw [← h.records k hk, hm.same k j hkj, hj]⟩

section

variable {k : SubscriberKey} {s s' : System} {ev : Event} {tr : List Event}

theorem sameSlot_trans {c c' c'' : Cache} (h : SameSlot k c c') (h' : SameSlot k c' c'') :
    SameSlot k c c'' where
  mapped := h'.mapped.trans h.mapped
  slot i hi := (h'.slot i (h.mapped ▸ hi)).trans (h.slot i hi)

theorem batches_key {r : Request} (h : r.batches k) : r.key? = some k := by
  cases r <;> simp_all [Request.batches, Request.key?]

/-- Calls about other subscribers leave the slot of a subscriber as it is. -/
theorem sameSlot_step (hs : s.Sound) (h : Step s ev s')
    (hk : ∀ t, ∀ f ∈ s.stack t, f.request.key? ≠ some k) :
    SameSlot k s.host.cursors s'.host.cursors := by
  cases h with
  | start | finish | disturb => exact sameSlot_of_eq rfl
  | @ask t n r past e next below a h' hst hr =>
    obtain ⟨-, -, -, hg⟩ := ask_granted hs hst hr
    have hne : r.key? ≠ some k := hk t _ (by rw [hst]; exact List.mem_cons_self)
    have hb : r.batches k → False := fun hb => hne (batches_key hb)
    cases moves_of_ask (k := k) hs hst hg with
    | aside _ hslot => exact hslot
    | reset h => exact absurd (congrArg Request.key? h) hne
    | evict h => exact absurd (congrArg Request.key? h) hne
    | _ => exact (hb ‹_›).elim

theorem sameSlot_run (hs : s.Sound) (h : Run Step s tr s')
    (hopen : ∀ t, ∀ f ∈ s.stack t, f.request.key? ≠ some k)
    (hcalls : ∀ r ∈ calls tr, r.key? ≠ some k) : SameSlot k s.host.cursors s'.host.cursors := by
  induction h with
  | nil => exact sameSlot_of_eq rfl
  | snoc h he ih =>
    have hcalls' := fun r hr => hcalls r (mem_calls_left hr)
    exact sameSlot_trans (ih hcalls')
      (sameSlot_step (sound_run hs h) he (requests_run h hopen hcalls'))

/-- Calls about subscribers that are kept under other names leave the messages and the record of a
subscriber as they are. -/
theorem agreeOn_run (hs : s.Sound) (h : Run Step s tr s')
    (hopen : ∀ t, ∀ f ∈ s.stack t,
      f.request.key?.any (·.spelled s.host.spell ≠ k.spelled s.host.spell))
    (hcalls : ∀ r ∈ calls tr, r.key?.any (·.spelled s.host.spell ≠ k.spelled s.host.spell)) :
    s.host.ledger.AgreeOn (· = k) s'.host.ledger := by
  induction h with
  | nil => exact Ledger.agreeOn_refl
  | @snoc s₁ s₂ tr e h he ih =>
    refine Ledger.agreeOn_trans (ih fun r hr => hcalls r (mem_calls_left hr)) ?_
    rcases ledger_step (sound_run hs h) he with hl | ⟨t, f, hf, -, -, hev⟩
    · rw [hl]
      exact Ledger.agreeOn_refl
    · have hapart := requests_run (h.snoc he) hopen hcalls t f hf
      obtain ⟨j, hj, hjk⟩ := (Option.any_eq_true _ _).1 hapart
      rw [spell_run hs h] at hev
      exact Ledger.evolves_apart hev hj (Ne.symm (of_decide_eq_true hjk))

end

section

variable {k : SubscriberKey} {c c' : Cache} {h h' : Host} {κ : Keeping} {l m : Ledger} {d : String}
  {about seen : SubscriberKey → Prop} {R : Nat → Nat → Prop}

theorem slotOf_sameSlot (h : SameSlot k c c') : c.slotOf k = c'.slotOf k := by
  cases hm : c.mapped.find? k with
  | none => rw [Cache.slotOf_none hm, Cache.slotOf_none (h.mapped.trans hm)]
  | some i => rw [Cache.slotOf_some hm, Cache.slotOf_some (h.mapped.trans hm), h.slot i hm]

theorem alike_of_sameSlot (hc : c.Sound) (hc' : c'.Sound) (h : SameSlot k c c') :
    c.Alike (· = k) (fun i j => i = j ∧ c.mapped.find? k = some i) c' where
  sound := hc
  sound' := hc'
  left _ _ _ h h' := h.1.symm.trans h'.1
  right _ _ _ h h' := h.1.trans h'.1.symm
  inside := by
    rintro i _ ⟨rfl, hi⟩
    exact ⟨hc.inside k i hi, hc'.inside k i (h.mapped.trans hi)⟩
  slot := by
    rintro i _ ⟨rfl, hi⟩
    exact (h.slot i hi).symm
  placed := by
    rintro i _ _ ⟨rfl, -⟩ rfl
    rw [h.mapped]
  same := by
    rintro _ rfl
    exact slotOf_sameSlot h

theorem alike_self (hc : c.Sound) : c.Alike about (fun i j => i = j ∧ i < c.slots.length) c where
  sound := hc
  sound' := hc
  left _ _ _ h h' := h.1.symm.trans h'.1
  right _ _ _ h h' := h.1.trans h'.1.symm
  inside := by
    rintro i _ ⟨rfl, hi⟩
    exact ⟨hi, hi⟩
  slot := by
    rintro i _ ⟨rfl, -⟩
    rfl
  placed := by
    rintro i _ _ ⟨rfl, -⟩ -
    rfl
  same _ _ := rfl

/-- Conversations about some subscribers go the same way on hosts that agree on these. -/
theorem views_same {n : Nat} {t : Thread} {σ : Strategy} (hc : h.Calm κ .closed l l)
    (hc' : h'.Calm κ .closed m m) (hl : l.AgreeOn about m) (hcur : h.cursors.Alike about R h'.cursors)
    (hseen : ∀ j : SubscriberKey, seen (j.spelled κ.spell) →
      ∃ k, about k ∧ k.spelled κ.spell = j.spelled κ.spell)
    (hσ : ∀ vs r, σ vs = some (.call r) → ∀ k, r.key? = some k → about k) :
    Dialogue.views seen σ n [] { thread := t, host := h } =
      Dialogue.views seen σ n [] { thread := t, host := h' } := by
  have hkeys : h.cursors.Alike (sameFor κ about seen n hseen).guide.keys R h'.cursors :=
    ⟨hcur.sound, hcur.sound', hcur.left, hcur.right, hcur.inside, hcur.slot,
      fun i j k hij ⟨r, hr, hk⟩ => hcur.placed i j k hij (hr k hk),
      fun k ⟨r, hr, hk⟩ => hcur.same k (hr k hk)⟩
  exact Likeness.views_alike (L := sameFor κ about seen n hseen)
    ⟨rfl, R, 0, 0, ⟨hkeys, l, m, l, m, hc, hc', hl, hl⟩, .nil, Nat.le_refl 0⟩ hσ
    (Nat.le_of_eq (Nat.zero_add n))

/-- A host without its faults. -/
def Host.healed (h : Host) : Host := { h with backend.faults := {} }

/-- A store for another destination of the same repository, with cursors of its own. -/
def Host.neighbour (h : Host) (d : String) (c : Cache) : Host :=
  { destination := d, requested := d, backend := { repository := h.backend.repository }, cursors := c }

theorem calm_healed {s : System} (hs : s.Sound) (hrec : s.Recorded)
    (hn : s.host.backend.repository.hasTransaction = false) :
    s.host.healed.Calm ⟨s.host.destination, s.host.spell, s.host.backend.repository.first⟩ .closed
      s.host.ledger s.host.ledger where
  destination := rfl
  spell := rfl
  first := rfl
  faults := rfl
  sound := ⟨hs.backend.repository, Repository.honest_none⟩
  tidy := hrec.tidy
  ledger := rfl
  sees := ⟨hn, rfl⟩

theorem calm_neighbour (hk : h.backend.repository.Keeps d l)
    (hn : h.backend.repository.hasTransaction = false) :
    (h.neighbour d c).Calm ⟨d, h.spell, h.backend.repository.first⟩ .closed l l where
  destination := rfl
  spell := rfl
  first := rfl
  faults := rfl
  sound := ⟨hk.sound, Repository.honest_none⟩
  tidy := hk.tidy
  ledger := hk.committed
  sees := ⟨hn, rfl⟩

end

/-- The calls in progress and those that are made later are all of one kind. -/
def System.Only (s : System) (tr : List Event) (P : Request → Prop) : Prop :=
  (∀ t, ∀ f ∈ s.stack t, P f.request) ∧ ∀ r ∈ calls tr, P r

/-- Calls leave the slots of all other subscribers as they are. A subscriber that the backend keeps
under another name sees the same before and after them, whatever it looks at, and so does whoever uses
a destination that is kept under another name. -/
theorem others_unaffected {s₀ s s' : System} {tr₀ tr : List Event} (h₀ : s₀.Opened)
    (ht : ∀ d, s₀.host.backend.repository.Sound d ∧ s₀.host.backend.repository.Tidy d)
    (hr : Run Step s₀ tr₀ s) (h : Run Step s tr s')
    (hn : s.host.backend.repository.hasTransaction = false)
    (hn' : s'.host.backend.repository.hasTransaction = false) :
    (∀ k, s.Only tr (·.key? ≠ some k) → SameSlot k s.host.cursors s'.host.cursors) ∧
    (∀ k, s.Only tr (·.key?.any (·.spelled s.host.spell ≠ k.spelled s.host.spell)) →
      ∀ t n (σ : Strategy), (∀ vs r, σ vs = some (.call r) → ∀ j, r.key? = some j → j = k) →
      Dialogue.views (· = k.spelled s.host.spell) σ n [] { thread := t, host := s.host.healed } =
        Dialogue.views (· = k.spelled s.host.spell) σ n [] { thread := t, host := s'.host.healed }) ∧
    (∀ d (c : Cache), c.Sound → s.host.spell d ≠ s.host.spell s.host.destination →
      ∀ t n (σ : Strategy),
      Dialogue.views (fun _ => True) σ n [] { thread := t, host := s.host.neighbour d c } =
        Dialogue.views (fun _ => True) σ n [] { thread := t, host := s'.host.neighbour d c }) := by
  have hs := sound_run (sound_opened h₀) hr
  have hs' := sound_run hs h
  have hrec := recorded_run (sound_opened h₀) (recorded_opened h₀ (ht _).2) hr
  have hspell := spell_run hs h
  have hfirst := Repository.first_of_spell hspell
  have hslot : ∀ k, s.Only tr (·.key? ≠ some k) → SameSlot k s.host.cursors s'.host.cursors :=
    fun k hk => sameSlot_run hs h hk.1 hk.2
  refine ⟨hslot, fun k hk t n σ hσ => ?_, fun d c hc hd t n σ => ?_⟩
  · have hother : ∀ r : Request, r.key?.any (·.spelled s.host.spell ≠ k.spelled s.host.spell) →
        r.key? ≠ some k := by
      intro r hr hk
      simp [hk] at hr
    have hsame := hslot k ⟨fun t f hf => hother _ (hk.1 t f hf), fun r hr => hother r (hk.2 r hr)⟩
    have hcalm := calm_healed hs' (recorded_run hs hrec h) hn'
    rw [destination_run hs h, hspell, hfirst] at hcalm
    exact views_same (calm_healed hs hrec hn) hcalm (agreeOn_run hs h hk.1 hk.2)
      (alike_of_sameSlot hs.cursors hs'.cursors hsame) (fun j hj => ⟨k, rfl, hj.symm⟩) hσ
  · have hkeeps : s.host.backend.repository.Keeps d (s₀.host.backend.repository.committed d) := by
      refine keeps_run (sound_opened h₀) hr ?_ ⟨(ht d).1, (ht d).2, rfl, fun x hx => ?_⟩
      · rwa [spell_run (sound_opened h₀) hr, destination_run (sound_opened h₀) hr] at hd
      · obtain ⟨y, hy⟩ := Repository.stand_active (d := s₀.host.destination) hx
        exact nomatch (Host.stand_idle h₀.closed).symm.trans hy
    have hcalm := calm_neighbour (c := c) (keeps_run hs h hd hkeeps) hn'
    rw [hspell, hfirst] at hcalm
    exact views_same (calm_neighbour hkeeps hn) hcalm Ledger.agreeOn_refl (alike_self hc)
      (fun j _ => ⟨j, trivial, rfl⟩) fun _ _ _ _ _ => trivial

/-- A store over a new database. -/
def overDatabase (d : String) : System := { host := newHost d (.onDatabase none) }

theorem opened_overDatabase (d : String) : (overDatabase d).Opened where
  repository := calm_onDatabase.sound
  closed := rfl
  cursors := rfl
  stack _ := rfl

/-- A key without a name, and the key that names the word shown for it. -/
def nameless : SubscriberKey := ⟨"a", none⟩
def namesake : SubscriberKey := ⟨"a", some "NOT_SET"⟩

/-- A message is stored, and a subscriber registers. -/
def namesakeWaits : List Choice :=
  [.call "main" (.publish (System.note "orders" "m1")),
    .call "main" (.subscribe { destination := "orders", key := namesake } true)]

/-- Another one registers, takes the message, acknowledges it and leaves. -/
def namelessReads : List Choice :=
  [.call "main" (.subscribe { destination := "orders", key := nameless } true),
    .call "main" (.recoverNext nameless 5 .reference), .hear "main" (.ok true),
    .hear "main" (.ok true), .call "main" (.acknowledge nameless "m1" .standard),
    .call "main" (.unsubscribe nameless)]

/-- All that the first one can look at. -/
def namesakeLooks : List Move :=
  [.call (.lookup namesake), .call (.cachedWatermark namesake), .call (.messageCount namesake),
    .call .subscriptions, .call (.recoverNext namesake 5 .reference), .answer (.ok true),
    .answer (.ok true)]

theorem namesake_unaffected :
    let s := ((overDatabase "orders").play namesakeWaits).2
    let s' := (s.play namelessReads).2
    SameSlot namesake s.host.cursors s'.host.cursors ∧
    (Dialogue.views (· = namesake) (.script namesakeLooks) 7 [] { host := s.host.healed } =
        Dialogue.views (· = namesake) (.script namesakeLooks) 7 [] { host := s'.host.healed } ∧
      (Dialogue.views (· = namesake) (.script namesakeLooks) 7 [] { host := s.host.healed }).length =
        7) ∧
    Dialogue.views (fun _ => True) (.script namesakeLooks) 7 [] { host := s.host.neighbour "news" {} } =
      Dialogue.views (fun _ => True) (.script namesakeLooks) 7 []
        { host := s'.host.neighbour "news" {} } := by
  intro s s'
  have hopen := opened_overDatabase "orders"
  have hr := System.play_run (s := overDatabase "orders") namesakeWaits
  have h : Run Step s (s.play namelessReads).1 s' := System.play_run namelessReads
  have hidle : ∀ t, ∀ f ∈ s.stack t, f.request.key? = some nameless := by
    obtain ⟨-, ha⟩ := serial_run (t := "main") hr (fun _ _ => rfl) (by decide +kernel)
    intro t f hf
    have hmain : s.stack "main" = [] := List.isEmpty_iff.1 (by decide +kernel)
    by_cases ht : t = "main"
    · rw [ht, hmain] at hf
      cases hf
    · rw [ha t ht] at hf
      cases hf
  have hcalls : ∀ r ∈ calls (s.play namelessReads).1, r.key? = some nameless := by decide +kernel
  have hspell : s.host.spell = Text.beforeNul := spell_run (sound_opened hopen) hr
  have hplain : namesake.spelled s.host.spell = namesake := by
    rw [hspell]
    decide
  have hapart : ∀ r : Request, r.key? = some nameless →
      r.key?.any (·.spelled s.host.spell ≠ namesake.spelled s.host.spell) := by
    intro r hkey
    rw [hkey, hspell]
    decide
  obtain ⟨hslot, hviews, hnext⟩ := others_unaffected hopen
    (fun d => ⟨(calm_onDatabase (d := d)).sound.1, Repository.tidy_onDatabase⟩) hr h
    (by decide +kernel) (by decide +kernel)
  have hsame := hviews namesake ⟨fun t f hf => hapart _ (hidle t f hf), fun r hr =>
    hapart r (hcalls r hr)⟩ "main" 7 (.script namesakeLooks) fun vs r hm j hj => ?_
  · rw [hplain] at hsame
    refine ⟨hslot namesake ⟨fun t f hf => ?_, fun r hr => ?_⟩, ⟨hsame, by decide +kernel⟩, ?_⟩
    · exact fun hk => absurd ((hidle t f hf).symm.trans hk) (by decide)
    · exact fun hk => absurd ((hcalls r hr).symm.trans hk) (by decide)
    · exact hnext "news" {} Cache.sound_empty (by decide +kernel) "main" 7 _
  · have hp := script_calls (P := fun r => r.key?.all (· = namesake)) (by decide +kernel) hm
    simpa [hj] using hp

/-- Keys that differ only after a NUL character are one key to a database. -/
theorem truncated_keys_collide :
    let s := overDatabase "orders"
    let s' := (s.play [.call "main" (.subscribe { destination := "orders", key := nameless } true)]).2
    let j : SubscriberKey := ⟨"a\x00b", none⟩
    j ≠ nameless ∧
      (Session.run (lookup · j) s.host).map (·.1.toOption) = some (some none) ∧
      (Session.run (lookup · j) s'.host).map (·.1.toOption.map (·.map (·.key))) =
        some (some (some nameless)) := by
  decide +kernel

end Store
end DurableTopic

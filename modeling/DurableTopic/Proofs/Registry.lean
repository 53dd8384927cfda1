import DurableTopic.Proofs.Backends
import DurableTopic.Proofs.Commits
/-! The subscribers of a destination are a map from keys to records. What is kept is what the calls
that were committed make of it, one after the other, and what is shown is what it was at one point of
the call that shows it. -/
namespace DurableTopic

open Repository (Ledger)
open Store (Request)

/-- The records of subscribers by their keys, and what else they depend on: where the messages are,
and the number of the last one. -/
@[ext]
structure Registry where
  entry : SubscriberKey → Option Subscription := fun _ => none
  place : String → Option Watermark := fun _ => none
  highest : Option Int := none

namespace Registry

/-- Changes the record of one key. -/
def set (R : Registry) (k : SubscriberKey) (o : Option Subscription) : Registry :=
  { R with entry := fun j => if j = k then o else R.entry j }

/-- The number of the next message. -/
def next (R : Registry) : Int := R.highest.getD 0 + 1

/-- Where a new subscriber starts: at the last message, if it is not retroactive and there is one. -/
def start (R : Registry) (retroactive : Bool) : Watermark :=
  match retroactive, R.highest with
  | false, some n => ⟨n, 0⟩
  | _, _ => ⟨-1, 0⟩

/-- A record that is moved forward to a message, if that is ahead. -/
def raised (x : Subscription) (w : Watermark) : Subscription :=
  if x.acked.sequence < w.sequence then { x with acked := w } else x

/-- What a call that succeeds makes of the registry of a destination. -/
def after (d : String) (R : Registry) : Request → Registry
  | .publish m => { R with
      place := fun i => if i = m.identity.value then some ⟨R.next, m.priority.toInt⟩ else R.place i
      highest := some R.next }
  | .subscribe info retroactive => R.set info.key <| some <|
      match R.entry info.key with
      | some x => { x with selector := info.selector, retroactive }
      | none => ⟨d, info.key, info.selector, retroactive, R.start retroactive⟩
  | .acknowledge k i .standard =>
    R.set k ((R.entry k).map fun x => (R.place i).elim x (raised x))
  | .unsubscribe k => R.set k none
  | _ => R

/-- A list has each record once, under its own key. -/
structure IsListed (R : Registry) (xs : List Subscription) : Prop where
  distinct : (xs.map (·.key)).Nodup
  entries : ∀ k x, R.entry k = some x ↔ x ∈ xs ∧ x.key = k

/-- What a call gives that succeeds: a lookup gives the record of its key, and a list has all
records. A message is new and gets the next number, and one that is acknowledged is there. -/
def Shows (R : Registry) : (r : Request) → r.Result → Prop
  | .publish m, n => R.place m.identity.value = none ∧ n = R.next
  | .acknowledge _ i .standard, _ => (R.place i).isSome
  | .lookup k, o => o = R.entry k
  | .subscriptions, xs => R.IsListed xs
  | _, _ => True

/-- The registry that a ledger holds. -/
def of (l : Ledger) : Registry where
  entry k := (l.record k).filter (·.key = k)
  place := l.position id
  highest := l.rows.getLast?.map (·.sequence)

theorem of_empty : of ⟨[], fun _ => none⟩ = {} := rfl

/-- A call changes no record but that of its own key. -/
theorem after_other {d : String} {R : Registry} {r : Request} {k : SubscriberKey}
    (h : r.key? ≠ some k) : (R.after d r).entry k = R.entry k := by
  have hset : ∀ j o, some j ≠ some k → (R.set j o).entry k = R.entry k := fun j o hj =>
    if_neg fun hk => hj (congrArg some hk.symm)
  cases r with
  | subscribe info b => exact hset _ _ h
  | acknowledge j i kind =>
    cases kind with
    | standard => exact hset _ _ h
    | unmatched => rfl
  | unsubscribe j => exact hset _ _ h
  | _ => rfl

section

variable {spell : String → String} {l : Ledger} {k : SubscriberKey} {w : Watermark}

theorem entry_of (hl : l.Keyed spell) (hk : k.Plain spell) : (of l).entry k = l.record k := by
  cases hx : l.record k with
  | none => simp [of, hx]
  | some x =>
    have hkey : x.key = k := (hl.own k x hx).trans hk
    simp [of, hx, hkey]

/-- Records that only go by another name show nothing. -/
theorem entry_alias (hl : l.Keyed spell) (hk : ¬ k.Plain spell) : (of l).entry k = none := by
  cases hx : l.record k with
  | none => simp [of, hx]
  | some x =>
    have hkey : x.key ≠ k := fun he => hk ((hl.own k x hx).symm.trans he)
    simp [of, hx, hkey]

/-- Where the record of a key changes to one that names the key, every record names its key. -/
theorem keyed_update {f : Option Subscription → Option Subscription} (hl : l.Keyed spell)
    (hk : k.Plain spell) (hf : ∀ x, f (l.record k) = some x → x.key = k) :
    (l.update spell k f).Keyed spell where
  own j x hx := by
    simp only [Ledger.update] at hx
    split at hx
    · rename_i hs
      exact (hf x (hl.same j k hs ▸ hx)).trans (hs.trans hk).symm
    · exact hl.own j x hx
  same i j hij := by simp only [Ledger.update, hij, hl.same i j hij]

theorem of_update {f : Option Subscription → Option Subscription} (hl : l.Keyed spell)
    (hk : k.Plain spell) (hf : ∀ x, f (l.record k) = some x → x.key = k) :
    of (l.update spell k f) = (of l).set k (f (l.record k)) := by
  have hl' := keyed_update hl hk hf
  refine Registry.ext (funext fun j => ?_) rfl rfl
  change _ = if j = k then _ else _
  by_cases hj : j.Plain spell
  · have hjk : j.spelled spell = k.spelled spell ↔ j = k := by rw [hj, hk]
    rw [entry_of hl' hj, entry_of hl hj]
    simp only [Ledger.update, hjk]
    split
    · rename_i he
      rw [he]
    · rfl
  · have hne : j ≠ k := fun he => hj (he ▸ hk)
    rw [entry_alias hl' hj, entry_alias hl hj, if_neg hne]

theorem next_of : (of l).next = l.next := by
  cases h : l.rows.getLast? <;> simp [of, next, Ledger.next, h]

theorem start_of {b : Bool} : (of l).start b = l.startFor b := by
  cases b <;> cases h : l.rows.getLast? <;> simp [of, start, Ledger.startFor, h, Watermark.start]

theorem place_of {i : String} (hi : spell i = i) : (of l).place i = l.position spell i := by
  simp [of, Ledger.position, hi]

theorem of_append {d : String} {m : Message} (hm : spell m.identity.value = m.identity.value)
    (hn : l.position spell m.identity.value = none) :
    of (l.append (Ledger.stored spell (Store.rowOf d m) l.next)) =
      (of l).after d (.publish m) := by
  have hnew : l.rows.find? (·.id = m.identity.value) = none := by
    simpa [Ledger.position, hm] using hn
  refine Registry.ext rfl (funext fun i => ?_) ?_
  · by_cases hi : i = m.identity.value
    · subst hi
      simp [of, after, Ledger.position, Ledger.append, List.find?_append, hnew, Ledger.stored,
        Store.rowOf, hm, Row.mark, ← next_of]
    · have hi' : m.identity.value ≠ i := Ne.symm hi
      simp [of, after, Ledger.position, Ledger.append, List.find?_append, Ledger.stored,
        Store.rowOf, hm, hi, hi']
  · simp [of, after, Ledger.append, Ledger.stored, ← next_of]

theorem of_put {d : String} {info : Subscription} {b : Bool} (hl : l.Keyed spell)
    (hk : info.key.Plain spell) (hd : spell d = d) (hs : spell info.selector = info.selector) :
    of (l.put spell ⟨d, info.key, info.selector, b, .start⟩ b) =
      (of l).after d (.subscribe info b) := by
  refine (of_update (k := info.key) hl hk ?_).trans ?_
  · intro x hx
    cases hold : l.record info.key with
    | none =>
      simp only [hold, Option.some.injEq] at hx
      exact hx ▸ hk
    | some y =>
      simp only [hold, Option.some.injEq] at hx
      exact hx ▸ (hl.own _ y hold).trans hk
  · have hspelled : info.key.spelled spell = info.key := hk
    simp only [after, entry_of hl hk, start_of, hs, hd, hspelled]
    cases l.record info.key <;> rfl

theorem of_persist {d i : String} (hl : l.Keyed spell) (hk : k.Plain spell) (hi : spell i = i)
    (hw : l.position spell i = some w) :
    of (l.persist spell k w) = (of l).after d (.acknowledge k i .standard) := by
  refine (of_update hl hk ?_).trans ?_
  · intro x hx
    obtain ⟨y, hy, rfl⟩ := Option.map_eq_some_iff.1 hx
    have hkey : (Ledger.advanced w y).key = y.key := by
      unfold Ledger.advanced
      split <;> rfl
    exact hkey.trans ((hl.own _ y hy).trans hk)
  · simp only [after, entry_of hl hk, place_of hi, hw, Option.elim_some]
    cases l.record k with
    | none => rfl
    | some x => simp [Ledger.advanced, raised]

theorem of_delete {d : String} (hl : l.Keyed spell) (hk : k.Plain spell) :
    of (l.delete spell k) = (of l).after d (.unsubscribe k) := of_update hl hk (by simp)

theorem listed_of {xs : List Subscription} (hl : l.Keyed spell)
    (hs : ∀ t, spell (spell t) = spell t) (hn : xs.Nodup)
    (hx : ∀ x, x ∈ xs ↔ ∃ k, l.record k = some x) : (of l).IsListed xs := by
  have hown : ∀ x ∈ xs, l.record x.key = some x := by
    intro x hm
    obtain ⟨k, hk⟩ := (hx x).1 hm
    have hkey := hl.own k x hk
    rw [hl.same x.key k (hkey ▸ SubscriberKey.plain_spelled hs), hk]
  constructor
  case distinct =>
    refine List.pairwise_map.2 (hn.imp_of_mem fun {x y} hxm hym hne hkey => hne ?_)
    exact Option.some.inj ((hown x hxm).symm.trans (hkey ▸ hown y hym))
  case entries =>
    intro k x
    simp only [of, Option.filter_eq_some_iff, decide_eq_true_eq]
    constructor
    · rintro ⟨hk, hkey⟩
      exact ⟨(hx x).2 ⟨k, hk⟩, hkey⟩
    · rintro ⟨hm, rfl⟩
      exact ⟨hown x hm, rfl⟩

end

end Registry
namespace Store

open Cursor (Thread)

/-- The calls whose transactions were committed, in order. -/
def Event.committed? : Event → Option Request
  | .ask _ _ r ⟨.commit, .ok _⟩ => some r
  | _ => none

/-- What the calls that were committed make of a registry, one after the other. -/
def registry (d : String) (R : Registry) (tr : List Event) : Registry :=
  (tr.filterMap Event.committed?).foldl (Registry.after d) R

section

variable {spell : String → String} {d : String} {base l : Ledger} {r : Request} {v : r.Result}
  {p : List Exchange}

theorem registry_snoc {R : Registry} {tr : List Event} {ev : Event} : registry d R (tr ++ [ev]) =
    ev.committed?.elim (registry d R tr) ((registry d R tr).after d) := by
  simp only [registry, List.filterMap_append, List.foldl_append]
  cases h : ev.committed? <;> simp [h]

theorem replays_asked {x : Exchange} {c : Repository.Call} {a : c.Reply}
    (h : Replays spell base [x, ⟨.begin, .ok ()⟩, ⟨.call c, a⟩] l) :
    base.Answers spell c a l ∧ base.Finds spell c a := by
  obtain ⟨l₀, h₀, ha, hf⟩ := replays_call (p := [x, ⟨.begin, .ok ()⟩]) h
  obtain rfl := replays_begin (p := [x]) h₀
  exact ⟨ha, hf⟩

/-- A call that is ready to commit makes of the registry what it is to make of it, and gives what the
registry shows. -/
theorem registry_ready (hr : r.Ready d p v) (h : Replays spell base p l) (hl : base.Keyed spell)
    (hs : ∀ t, spell (spell t) = spell t) (ht : ∀ t ∈ d :: r.texts, spell t = t) :
    Registry.of l = (Registry.of base).after d r ∧ (Registry.of base).Shows r v := by
  obtain ⟨x, asked, rfl, ha⟩ := hr
  have hd : spell d = d := ht d List.mem_cons_self
  have htexts : ∀ t ∈ r.texts, spell t = t := fun t hm => ht t (List.mem_cons_of_mem _ hm)
  have hkey : ∀ k, r.key? = some k → k.Plain spell := fun k hk =>
    SubscriberKey.plain_of_kept fun t hm => htexts t (Request.texts_key hk t hm)
  cases r with
  | publish m =>
    obtain ⟨s, hok, rfl⟩ := ha
    have hm := htexts m.identity.value (by simp [Request.texts])
    obtain ⟨hans, hfinds⟩ := replays_asked h
    obtain ⟨hnew, hnext⟩ := hfinds _ rfl hok
    rcases hans with ⟨y, hy, -, -, -, rfl⟩ | ⟨hno, -⟩
    · cases hy
      rw [show v = base.next from hnext]
      exact ⟨Registry.of_append hm hnew, (Registry.place_of hm).trans hnew, Registry.next_of.symm⟩
    · exact absurd hok (by simp [hno _ rfl])
  | acknowledge k i kind =>
    cases kind with
    | unmatched => exact ha.elim
    | standard =>
      obtain ⟨w, s, hok, rfl⟩ := ha
      have hi := htexts i (by simp [Request.texts])
      obtain ⟨l₁, h₁, hans, -⟩ := replays_call
        (p := [x, ⟨.begin, .ok ()⟩, ⟨.call (.resolve d i), .ok (some w)⟩]) h
      obtain ⟨rfl, hfinds⟩ := replays_asked h₁
      have hw := (hfinds _ rfl).symm
      rw [Ledger.wrote_ok hans hok]
      refine ⟨Registry.of_persist hl (hkey k rfl) hi hw, ?_⟩
      exact Option.isSome_iff_exists.2 ⟨w, (Registry.place_of hi).trans hw⟩
  | subscribe info b =>
    obtain ⟨s, hok, rfl⟩ := ha
    rw [Ledger.wrote_ok (replays_asked h).1 hok]
    exact ⟨Registry.of_put hl (hkey info.key rfl) hd (htexts _ (by simp [Request.texts])), trivial⟩
  | lookup k =>
    obtain rfl := ha
    obtain ⟨rfl, hrecord⟩ := (replays_asked h).1
    exact ⟨rfl, (hrecord v rfl).trans (Registry.entry_of hl (hkey k rfl)).symm⟩
  | subscriptions =>
    obtain rfl := ha
    obtain ⟨rfl, hfinds⟩ := replays_asked h
    obtain ⟨hn, hx⟩ := hfinds v rfl
    exact ⟨rfl, Registry.listed_of hl hs hn hx⟩
  | unsubscribe k =>
    obtain ⟨s, hok, rfl⟩ := ha
    rw [Ledger.wrote_ok (replays_asked h).1 hok]
    exact ⟨Registry.of_delete hl (hkey k rfl), trivial⟩
  | _ => exact ha.elim

/-- A call that is no such transaction leaves the registry alone, wherever it commits. -/
theorem registry_unready (h : Ledger.Evolves spell (r.mayCall d) base l)
    (hr : r.registers = false) (ha : r.Allows d p .commit) :
    Registry.of l = (Registry.of base).after d r := by
  cases r with
  | acknowledge k i kind =>
    cases kind with
    | standard => cases hr
    | unmatched => exact ha.elim
  | recoverNext | recoverAll | resetBatching | messageCount | cachedWatermark =>
    refine congrArg Registry.of (Ledger.evolves_same h fun c hc => ?_)
    cases c <;> simp_all [Request.mayCall, Repository.Call.writes]
  | _ => cases hr

end

section

variable {t : Thread} {n : Nat} {s₀ s s' : System} {tr : List Event} {ev : Event} {r : Request}
  {past : List Exchange} {below : List Frame}

/-- Texts that a repository keeps as they are: in memory all of them, in a database those without
NUL. -/
def Host.Keeps (h : Host) (texts : List String) : Prop :=
  (∃ ts x, h.backend.repository = .memory ts x) ∨ ∀ t ∈ texts, Text.NulFree t

theorem spell_of_keeps {h : Host} {texts : List String} (hk : h.Keeps texts) :
    ∀ t ∈ texts, h.spell t = t := by
  intro t ht
  change h.backend.repository.spell t = t
  rcases hk with ⟨ts, x, hm⟩ | hn
  · rw [hm]
    rfl
  · cases h.backend.repository with
    | memory => rfl
    | embedded => exact Text.beforeNul_eq_self (hn t ht)

theorem spell_spell {h : Host} (t : String) : h.spell (h.spell t) = h.spell t := by
  change h.backend.repository.spell (h.backend.repository.spell t) = h.backend.repository.spell t
  cases h.backend.repository with
  | memory => rfl
  | embedded => exact Text.beforeNul_beforeNul t

/-- The texts of the calls that are made, and the destination that they are about. -/
def textsOf (d : String) (tr : List Event) : List String := d :: (calls tr).flatMap Request.texts

/-- A repository keeps all texts of a call as they are. -/
def Host.KeepsOf (h : Host) (r : Request) : Prop := ∀ t ∈ h.destination :: r.texts, h.spell t = t

theorem keepsOf_calls {h : Host} (hk : h.Keeps (textsOf h.destination tr)) (hr : r ∈ calls tr) :
    h.KeepsOf r := by
  intro x hx
  refine spell_of_keeps hk x ?_
  rcases List.mem_cons.1 hx with rfl | hx
  · exact List.mem_cons_self
  · exact List.mem_cons_of_mem _ (List.mem_flatMap.2 ⟨r, hr, hx⟩)

theorem keepsOf_run (h₀ : s₀.Opened) (h : Run Step s₀ tr s)
    (hk : ∀ r ∈ calls tr, s₀.host.KeepsOf r) :
    ∀ t, ∀ f ∈ s.stack t, s₀.host.KeepsOf f.request :=
  requests_run h (by simp [h₀.stack]) hk

/-- What a call shows that is about to commit, and what it makes of the registry. -/
theorem registry_commit {next : Effect.commit.Reply → Operation (Except Failure r.Result)}
    {v : r.Result} (h₀ : s₀.Opened) (ht : s₀.host.backend.repository.Tidy s₀.host.destination)
    (h : Run Step s₀ tr s) (hst : s.stack t = ⟨n, r, past, .perform .commit next⟩ :: below)
    (hr : r.Ready s₀.host.destination past v) {l : Ledger} (hl : s.host.stand = .active l)
    (hk : s₀.host.KeepsOf r) :
    Registry.of l = (Registry.of s.host.ledger).after s₀.host.destination r ∧
      (Registry.of s.host.ledger).Shows r v := by
  have hs := sound_run (sound_opened h₀) h
  have hrec := recorded_run (sound_opened h₀) (recorded_opened h₀ ht) h
  obtain ⟨l', hl', hrep, -⟩ := replays_commit hs hrec hst
  obtain rfl : l' = l := by simpa [hl'] using hl
  have hsp := spell_run (sound_opened h₀) h
  exact registry_ready hr hrep (Repository.committed_keyed hrec.tidy) spell_spell
    (by rw [hsp]; exact hk)

/-- A commit that is answered well makes of the registry what its call makes of it, and nothing else
changes it. -/
theorem registry_step (h₀ : s₀.Opened) (ht : s₀.host.backend.repository.Tidy s₀.host.destination)
    (hk : ∀ r ∈ calls tr, s₀.host.KeepsOf r) (h : Run Step s₀ tr s) (he : Step s ev s') :
    Registry.of s'.host.ledger = ev.committed?.elim (Registry.of s.host.ledger)
      ((Registry.of s.host.ledger).after s₀.host.destination) := by
  have hs := sound_run (sound_opened h₀) h
  have hrec := recorded_run (sound_opened h₀) (recorded_opened h₀ ht) h
  cases he with
  | start | finish | disturb => rfl
  | @ask t n r past e next below a h' hst hr =>
    obtain ⟨hd, -, -, hg⟩ := ask_granted hs hst hr
    have hmem : Frame.mk n r past (.perform e next) ∈ s.stack t := by
      rw [hst]; exact List.mem_cons_self
    cases e with
    | begin => exact congrArg Registry.of hg.2.1
    | call => exact congrArg Registry.of hg.2.1
    | close => exact congrArg Registry.of hg.2
    | commit =>
      obtain ⟨-, l, hl, ⟨rfl, hleg, -⟩ | ⟨⟨f, rfl⟩, hleg, -⟩⟩ := hg
      · refine (congrArg Registry.of hleg).trans ?_
        cases hreg : r.registers with
        | true =>
          obtain ⟨v, hready⟩ := (settles_run h₀ h hmem).1 hreg rfl
          exact (registry_commit h₀ ht h hst hready hl (keepsOf_run h₀ h hk t _ hmem)).1
        | false =>
          obtain ⟨l', hl', -, hev, hallow⟩ := replays_commit hs hrec hst
          obtain rfl : l' = l := by simpa [hl'] using hl
          rw [← destination_run (sound_opened h₀) h]
          exact registry_unready hev hreg hallow
      · exact congrArg Registry.of hleg
    | _ => exact congrArg Registry.of (ledger_of_backend hg.1 hd).1

theorem registry_run (h₀ : s₀.Opened) (ht : s₀.host.backend.repository.Tidy s₀.host.destination)
    (hk : ∀ r ∈ calls tr, s₀.host.KeepsOf r) (h : Run Step s₀ tr s) :
    Registry.of s.host.ledger = registry s₀.host.destination (Registry.of s₀.host.ledger) tr := by
  induction h with
  | nil => rfl
  | snoc h he ih =>
    have hk := fun r hr => hk r (mem_calls_left hr)
    rw [registry_snoc, ← ih hk]
    exact registry_step h₀ ht hk h he

end

/-- The registry is a map. On any run, with whatever failures, what is kept is the fold of the calls
that were committed, over what the store was opened on, which is nothing if that was new. A call is
committed once if it succeeds, between its start and its end, and never if it fails. What it gives
is what the fold shows at that point: a lookup gives the record of its key, and a list has every
record once. No call changes the record of another key, and an absent name is another key than the
empty one. -/
theorem registry_is_map {s₀ s : System} {tr : List Event} (h₀ : s₀.Opened)
    (ht : s₀.host.backend.repository.Tidy s₀.host.destination) (h : Run Step s₀ tr s)
    (hk : s₀.host.Keeps (textsOf s₀.host.destination tr)) :
    (s₀.host.ledger = ⟨[], fun _ => none⟩ → Registry.of s₀.host.ledger = {}) ∧
    Registry.of s.host.ledger = registry s₀.host.destination (Registry.of s₀.host.ledger) tr ∧
    (∀ t, ∀ f ∈ s.stack t, f.request.registers →
      (∀ v, f.rest = .done (.ok v) → ∃ tr₁ tr₂,
        tr = tr₁ ++ .committing t f.number f.request :: tr₂ ∧
        .start t f.number f.request ∈ tr₁ ∧ .committing t f.number f.request ∉ tr₁ ∧
        .committing t f.number f.request ∉ tr₂ ∧
        (registry s₀.host.destination (Registry.of s₀.host.ledger) tr₁).Shows f.request v) ∧
      ∀ e, f.rest = .done (.error e) → .committing t f.number f.request ∉ tr) ∧
    (∀ d R r k, r.key? ≠ some k → (Registry.after d R r).entry k = R.entry k) ∧
    ∀ client, (⟨client, none⟩ : SubscriberKey) ≠ ⟨client, some ""⟩ := by
  have hcalls : ∀ r ∈ calls tr, s₀.host.KeepsOf r := fun r hr => keepsOf_calls hk hr
  refine ⟨fun hempty => by rw [hempty, Registry.of_empty], registry_run h₀ ht hcalls h, fun t f hf hr => ⟨?_, ?_⟩,
    fun d R r k => Registry.after_other, by simp⟩
  · intro v hd
    obtain ⟨tr₁, tr₂, s₁, s₂, p, next, below, rfl, hrun, -, hst, hready, hstart, hl, hr⟩ :=
      committed_at h₀ h hf hr hd
    have hcalls₁ := fun r hr => hcalls r (mem_calls_left hr)
    have hs₁ := sound_run (sound_opened h₀) hrun
    have hmem : Frame.mk f.number f.request p (.perform .commit next) ∈ s₁.stack t := by
      rw [hst]; exact List.mem_cons_self
    obtain ⟨l, hactive, -⟩ := (hs₁.frames t _ hmem).active (hs₁.frames t _ hmem).follows.1.1
    refine ⟨tr₁, tr₂, rfl, hstart, hl, hr, ?_⟩
    rw [← registry_run h₀ ht hcalls₁ hrun]
    have hkeeps : s₀.host.KeepsOf f.request := keepsOf_run h₀ hrun hcalls₁ t
      ⟨f.number, f.request, p, .perform .commit next⟩ hmem
    exact (registry_commit h₀ ht hrun hst hready hactive hkeeps).2
  · intro e hd
    exact not_committed h₀ h hf hr hd

/-- The records that a call lists, where it is done. -/
def Frame.listed? : Frame → Option (List Subscription)
  | ⟨_, .subscriptions, _, .done (.ok xs)⟩ => some xs
  | _ => none

/-- Two subscribers of one client, without a name and with the empty one. One comes before the first
message, and one behind it. One acknowledges that message, and is refused another. One that is
deleted comes again. -/
def bothNames : List Choice :=
  [.call "main" (.subscribe { destination := "orders", key := ⟨"a", none⟩ } false),
    .call "main" (.publish (System.note "orders" "m1")),
    .call "main" (.acknowledge ⟨"a", none⟩ "m1" .standard),
    .call "main" (.acknowledge ⟨"a", none⟩ "m2" .standard),
    .call "main" (.subscribe { destination := "orders", key := ⟨"a", some ""⟩ } true),
    .call "main" (.unsubscribe ⟨"a", some ""⟩),
    .call "main" (.subscribe { destination := "orders", key := ⟨"a", some ""⟩ } false),
    .call "main" (.subscribe { destination := "orders", key := ⟨"a", none⟩, selector := "x" } true),
    .call "main" .subscriptions 7]

theorem both_names_are_listed :
    let xs : List Subscription := [⟨"orders", ⟨"a", none⟩, "x", true, ⟨1, 0⟩⟩,
      ⟨"orders", ⟨"a", some ""⟩, "", false, ⟨1, 0⟩⟩]
    (∃ f ∈ ((System.fresh "orders").play bothNames).2.stack "main", f.listed? = some xs) ∧
    ∃ tr₁ tr₂, ((System.fresh "orders").play bothNames).1 = tr₁ ++ tr₂ ∧
      (registry "orders" {} tr₁).IsListed xs := by
  intro xs
  have hlisted : ∃ f ∈ ((System.fresh "orders").play bothNames).2.stack "main",
      f.listed? = some xs := by
    have hd : (((System.fresh "orders").play bothNames).2.stack "main").any
        (·.listed? = some xs) = true := by decide +kernel
    simpa using hd
  refine ⟨hlisted, ?_⟩
  obtain ⟨f, hf, hxs⟩ := hlisted
  obtain ⟨hempty, -, hcalls, -⟩ := registry_is_map (System.opened_fresh "orders")
    Repository.tidy_inMemory (System.play_run bothNames) (Or.inl ⟨_, _, rfl⟩)
  obtain ⟨n, r, past, rest⟩ := f
  unfold Frame.listed? at hxs
  split at hxs
  · cases hxs
    rename_i heq
    cases heq
    obtain ⟨tr₁, tr₂, htr, -, -, -, hshows⟩ := (hcalls "main" _ hf rfl).1 xs rfl
    rw [hempty rfl] at hshows
    exact ⟨tr₁, _, htr, hshows⟩
  · cases hxs

end Store
end DurableTopic

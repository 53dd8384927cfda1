import DurableTopic.Proofs.Agreement
import DurableTopic.Proofs.Dialogue
import DurableTopic.Proofs.Play
/-! A store in memory and a store over a new database cannot be told apart, as long as no text holds a
NUL character: every conversation goes the same way on both. -/
namespace DurableTopic

/-- The texts of a key. -/
def SubscriberKey.texts (k : SubscriberKey) : List String := k.client :: k.name.toList

theorem SubscriberKey.plain_of_kept {spell : String → String} {k : SubscriberKey}
    (h : ∀ t ∈ k.texts, spell t = t) : k.Plain spell := by
  obtain ⟨client, name⟩ := k
  cases name with
  | none => simp [Plain, spelled, h client (by simp [texts])]
  | some n => simp [Plain, spelled, h client (by simp [texts]), h n (by simp [texts])]

theorem SubscriberKey.plain_of_texts {k : SubscriberKey} (h : ∀ t ∈ k.texts, Text.NulFree t) :
    k.Plain Text.beforeNul :=
  plain_of_kept fun t ht => Text.beforeNul_eq_self (h t ht)

theorem SubscriberKey.plain_spelled {spell : String → String} {k : SubscriberKey}
    (h : ∀ t, spell (spell t) = spell t) : (k.spelled spell).Plain spell := by
  simp [Plain, spelled, Function.comp_def, h]

namespace Repository

/-- A signed word holds the numbers below 0x8000000000000000. -/
theorem limitWord_of_lt {limit : Nat} (h : limit < 0x8000000000000000) : limitWord limit = limit :=
  Int64.toInt_ofNat_of_lt h

theorem limitWord_neg {limit : Nat} (h : 0x8000000000000000 ≤ limit) (h' : limit < UInt64.size) :
    limitWord limit < 0 := by
  rw [limitWord, Int64.toInt_ofNat', Int.bmod_def]
  simp only [Int64.size, UInt64.size] at h' ⊢
  omega

/-- A limit cuts a scan after so many rows. Where it is read as no limit, there are not as many. -/
theorem Embedded.first_eq {limit : Nat} {rows : List Row} (hl : limit < UInt64.size)
    (hr : limit < 0x8000000000000000 ∨ rows.length < 0x8000000000000000) :
    Embedded.first limit rows = rows.take limit := by
  unfold first limited
  by_cases hz : limit = 0
  · simp [hz]
  rw [if_neg hz]
  by_cases hs : limit < 0x8000000000000000
  · rw [limitWord_of_lt hs, if_neg (by omega), Int.toNat_natCast]
  · rw [if_pos (limitWord_neg (by omega) hl), List.take_of_length_le (by omega)]

namespace Ledger

/-- A database holds what a topic in memory holds: the same messages, no more than so many, and the
same records under keys that are kept as they are written. Memory holds no others. -/
structure Mirrored (n : Nat) (l m : Ledger) : Prop where
  agree : l.AgreeOn (·.Plain Text.beforeNul) m
  few : l.rows.length ≤ n
  plain : ∀ k x, l.record k = some x → k.Plain Text.beforeNul

variable {n : Nat} {l m l' m' : Ledger} {c : Call} {a b : c.Reply}

theorem mirrored_empty : Mirrored 0 ⟨[], fun _ => none⟩ ⟨[], fun _ => none⟩ where
  agree := ⟨rfl, fun _ _ => rfl⟩
  few := Nat.le_refl 0
  plain _ _ h := nomatch h

/-- A call stores no more messages than it may. -/
theorem yields_few {spell : String → String} {first : Nat → List Row → List Row}
    (h : l.Yields spell first c a l') : l'.rows.length ≤ l.rows.length + c.adds := by
  cases c with
  | append r =>
    obtain ⟨x, -, ⟨-, -, rfl⟩ | ⟨-, -, rfl⟩⟩ := h
    · exact Nat.le_add_right ..
    · simp [append, Call.adds]
  | persist | put | delete =>
    obtain ⟨-, rfl⟩ := h
    exact Nat.le_refl _
  | _ =>
    obtain ⟨-, rfl⟩ := h
    exact Nat.le_refl _

/-- Memory holds records only under keys that calls were about. -/
theorem yields_records {P : SubscriberKey → Prop} {first : Nat → List Row → List Row}
    (h : l.Yields id first c a l') (hc : ∀ k, c.key? = some k → P k)
    (hp : ∀ k x, l.record k = some x → P k) : ∀ k x, l'.record k = some x → P k := by
  have hupdate : ∀ (j : SubscriberKey) f, P j → ∀ k x, (l.update id j f).record k = some x → P k := by
    intro j f hj k x hx
    simp only [update, SubscriberKey.spelled_id] at hx
    split at hx
    · rename_i hkj
      exact hkj ▸ hj
    · exact hp k x hx
  cases c with
  | append r =>
    obtain ⟨x, -, ⟨-, -, rfl⟩ | ⟨-, -, rfl⟩⟩ := h <;> exact hp
  | persist d j w =>
    obtain ⟨-, rfl⟩ := h
    exact hupdate j _ (hc j rfl)
  | put s retroactive =>
    obtain ⟨-, rfl⟩ := h
    exact hupdate s.key _ (hc s.key rfl)
  | delete d j =>
    obtain ⟨-, rfl⟩ := h
    exact hupdate j _ (hc j rfl)
  | _ =>
    obtain ⟨-, rfl⟩ := h
    exact hp

/-- Every record of the one is a record of the other. -/
theorem mirrored_records {x : Subscription} (h : Mirrored n l m) (hm : m.Keyed Text.beforeNul) :
    (∃ k, l.record k = some x) ↔ ∃ k, m.record k = some x := by
  constructor
  · rintro ⟨k, hk⟩
    exact ⟨k, (h.agree.records k (h.plain k x hk)).trans hk⟩
  · rintro ⟨k, hk⟩
    refine ⟨k.spelled Text.beforeNul, ?_⟩
    have hplain := SubscriberKey.plain_spelled (k := k) Text.beforeNul_beforeNul
    rw [← h.agree.records _ hplain, hm.same _ k hplain]
    exact hk

/-- A call that both take alike is answered alike, and leaves a database that holds what memory does. -/
theorem mirrored_answers
    (hc : c.TakenAlike id Text.beforeNul List.take Embedded.first (·.Plain Text.beforeNul) l.rows.length)
    (h : Mirrored n l m) (hm : m.Keyed Text.beforeNul) (ha : l.Yields id List.take c a l')
    (hb : m.Yields Text.beforeNul Embedded.first c b m') :
    c.Agree (fun _ => True) a b ∧ Mirrored (n + c.adds) l' m' := by
  obtain ⟨hab, hagree⟩ := agreeOn_answers hc h.agree (fun _ _ => mirrored_records h hm) ha hb
  have := h.few
  have := yields_few ha
  exact ⟨hab, hagree, by omega, yields_records ha hc.key h.plain⟩

end Ledger
end Repository
namespace Store

open Repository (Call Ledger)

/-- The texts of a call that a backend keeps or compares. -/
def Request.texts : Request → List String
  | publish m => [m.identity.value]
  | acknowledge k i _ => i :: k.texts
  | subscribe x _ => x.selector :: x.key.texts
  | recoverNext k .. | recoverAll k _ | resetBatching k | lookup k | unsubscribe k | messageCount k
  | cachedWatermark k => k.texts
  | subscriptions => []

theorem Request.texts_key {r : Request} {k : SubscriberKey} (hk : r.key? = some k) :
    ∀ t ∈ k.texts, t ∈ r.texts := by
  cases r <;> cases hk <;> simp +contextual [texts]

theorem Request.makes_texts {d : String} {r : Request} {c : Call} (hd : Text.NulFree d)
    (hr : ∀ t ∈ r.texts, Text.NulFree t) (hc : r.Makes d c) : ∀ t ∈ c.texts, Text.NulFree t := by
  cases r <;> simp only [Makes] at hc
  case publish m =>
    obtain ⟨rfl, -⟩ := hc
    simpa [Call.texts, rowOf] using ⟨hd, hr m.identity.value (by simp [texts])⟩
  case acknowledge k i kind =>
    rcases hc with rfl | ⟨w, rfl⟩ <;> simp_all [Call.texts, texts]
  case recoverNext => rcases hc with rfl | ⟨w, rfl⟩ <;> simp [Call.texts]
  all_goals subst hc; simp_all [Call.texts, texts]

/-- The number of messages that a call asks for, if it does. -/
def Request.limit : Request → Nat
  | recoverNext _ limit _ => limit
  | _ => 0

theorem Request.makes_limit {d e : String} {r : Request} {k : SubscriberKey} {w : Watermark} {n : Nat}
    (hc : r.Makes d (.scanAfter e k w n)) : n = r.limit := by
  cases r <;> simp_all [Makes, limit]

/-- A call without NUL in its texts, as one of `n` calls. Its limit is a 64-bit number; one that no
signed word holds is more than the messages that so many calls can store. -/
structure Request.Plain (n : Nat) (r : Request) : Prop where
  texts : ∀ t ∈ r.texts, Text.NulFree t
  word : r.limit < UInt64.size
  enough : r.limit < 0x8000000000000000 ∨ n < 0x8000000000000000

instance {n : Nat} {r : Request} : Decidable (r.Plain n) :=
  decidable_of_iff
    ((∀ t ∈ r.texts, Text.NulFree t) ∧ r.limit < UInt64.size ∧ (r.limit < 0x8000000000000000 ∨ n < 0x8000000000000000))
    ⟨fun ⟨ht, hw, he⟩ => ⟨ht, hw, he⟩, fun ⟨ht, hw, he⟩ => ⟨ht, hw, he⟩⟩

/-- The calls that a plain call makes are taken alike in memory and by a database. -/
theorem Request.taken_alike {d : String} {n size : Nat} {r : Request} {c : Call} (hd : Text.NulFree d)
    (hr : r.Plain n) (hsize : size ≤ n) (hc : r.Makes d c) :
    c.TakenAlike id Text.beforeNul List.take Repository.Embedded.first (·.Plain Text.beforeNul)
      size where
  key k hk := SubscriberKey.plain_of_texts fun t ht => hr.texts t (texts_key (makes_key hc hk) t ht)
  names k hk := by
    rw [SubscriberKey.spelled_id]
    exact hk.symm
  texts t ht := (Text.beforeNul_eq_self (makes_texts hd hr.texts hc t ht)).symm
  limit d' k w m rows hcm hrows := by
    subst hcm
    have hm := makes_limit hc
    have hword := hr.word
    have henough := hr.enough
    exact (Repository.Embedded.first_eq (by omega) (by omega)).symm

/-- A topic in memory and the tables of a database, for calls without NUL. -/
def backends (d : String) (hd : Text.NulFree d) (n : Nat) : Likeness where
  left := ⟨d, id, List.take⟩
  right := ⟨d, Text.beforeNul, Repository.Embedded.first⟩
  destination := rfl
  allows := Request.Plain n
  seen _ := True
  bound := n
  like := Ledger.Mirrored
  grows _ _ _ _ hmn h := ⟨h.agree, Nat.le_trans h.few hmn, h.plain⟩
  answers _ _ _ _ _ _ _ _ _ hr hc hn h _ hm ha hb :=
    Ledger.mirrored_answers
      (Request.taken_alike hd hr (Nat.le_trans h.few (Nat.le_of_add_right_le hn)) hc) h hm ha hb

/-- A new store over a repository that holds nothing yet. -/
def newHost (d : String) (r : Repository) : Host :=
  { destination := d, requested := d, backend := { repository := r } }

theorem calm_inMemory {d : String} : (newHost d .inMemory).Calm ⟨d, id, List.take⟩ .closed
    ⟨[], fun _ => none⟩ ⟨[], fun _ => none⟩ where
  destination := rfl
  spell := rfl
  first := rfl
  faults := rfl
  sound := ⟨⟨Repository.Memory.topic_sound_empty, by simp⟩, Repository.honest_none⟩
  tidy := Repository.tidy_inMemory
  ledger := rfl
  sees := ⟨rfl, rfl⟩

theorem calm_onDatabase {d : String} {file : Option Repository.Embedded.Path} :
    (newHost d (.onDatabase file)).Calm ⟨d, Text.beforeNul, Repository.Embedded.first⟩ .closed
      ⟨[], fun _ => none⟩ ⟨[], fun _ => none⟩ where
  destination := rfl
  spell := rfl
  first := rfl
  faults := rfl
  sound := ⟨⟨⟨.nil, fun _ h => nomatch h⟩, by simp, rfl⟩, Repository.honest_none⟩
  tidy := Repository.tidy_onDatabase
  ledger := rfl
  sees := ⟨rfl, rfl⟩

/-- A store in memory and a store over a new database answer alike, and ask their listeners alike. -/
theorem backends_answer_alike (d : String) (file : Option Repository.Embedded.Path) (σ : Strategy)
    (n : Nat) (hd : Text.NulFree d) (hσ : ∀ vs r, σ vs = some (.call r) → r.Plain n) :
    Dialogue.views (fun _ => True) σ n [] { host := newHost d .inMemory } =
      Dialogue.views (fun _ => True) σ n [] { host := newHost d (.onDatabase file) } :=
  Likeness.views_alike (L := backends d hd n) ⟨rfl, fun _ _ => False, 0, 0,
    ⟨Cursor.Cache.alike_empty, _, _, _, _, calm_inMemory, calm_onDatabase, Ledger.mirrored_empty,
      Ledger.mirrored_empty⟩, .nil, Nat.le_refl 0⟩ hσ (Nat.le_of_eq (Nat.zero_add n))

/-- A subscriber acknowledges a message while it is offered. -/
def acknowledgedOffer : List Move :=
  [.call (.publish (System.note "orders" "m1")),
   .call (.subscribe ⟨"orders", ⟨"a", none⟩, "", true, .start⟩ true),
   .call (.recoverNext ⟨"a", none⟩ 5 .messages), .answer (.ok true),
   .call (.acknowledge ⟨"a", none⟩ "m1" .standard), .answer (.ok true),
   .call (.messageCount ⟨"a", none⟩), .call .subscriptions]

theorem acknowledged_offer_alike :
    Dialogue.views (fun _ => True) (.script acknowledgedOffer) 8 []
        { host := newHost "orders" .inMemory } =
      Dialogue.views (fun _ => True) (.script acknowledgedOffer) 8 []
        { host := newHost "orders" (.onDatabase none) } ∧
    (Dialogue.views (fun _ => True) (.script acknowledgedOffer) 8 []
        { host := newHost "orders" .inMemory }).length = 8 := by
  refine ⟨backends_answer_alike "orders" none _ 8 (by decide +kernel) fun vs r hr => ?_, by decide +kernel⟩
  exact of_decide_eq_true (script_calls (P := fun r => decide (r.Plain 8)) (by decide +kernel) hr)

end Store
end DurableTopic

import DurableTopic.Proofs.Alike
/-! Ledgers that agree on what a call is about answer it the same, whichever backends keep them. -/
namespace DurableTopic.Repository

/-- The subscriber that a call is about. -/
def Call.key? : Call → Option SubscriberKey
  | persist _ k _ | load _ k | scanAfter _ k _ _ | scanAll _ k | count _ k | get _ k | delete _ k => some k
  | put s _ => some s.key
  | append _ | resolve .. | list _ => none

/-- The other texts of a call that a backend keeps or compares. -/
def Call.texts : Call → List String
  | append r => [r.destination, r.id]
  | resolve _ i => [i]
  | put s _ => [s.destination, s.selector]
  | persist .. | load .. | scanAfter .. | scanAll .. | count .. | get .. | delete .. | list _ => []

/-- Two backends take a call about some subscribers alike: they keep its texts and these subscribers'
names in one way, and cut as many rows as there are in one way. -/
structure Call.TakenAlike (σ τ : String → String) (f g : Nat → List Row → List Row)
    (about : SubscriberKey → Prop) (size : Nat) (c : Call) : Prop where
  key : ∀ k, c.key? = some k → about k
  names : ∀ k, about k → k.spelled σ = k.spelled τ
  texts : ∀ t ∈ c.texts, σ t = τ t
  limit : ∀ d k w n rows, c = .scanAfter d k w n → rows.length ≤ size → f n rows = g n rows

namespace Ledger

/-- Two ledgers hold the same messages, and the same records of some subscribers. -/
structure AgreeOn (about : SubscriberKey → Prop) (l m : Ledger) : Prop where
  rows : m.rows = l.rows
  records : ∀ k, about k → m.record k = l.record k

variable {σ τ : String → String} {about seen : SubscriberKey → Prop} {l m l' m' : Ledger}
  {k : SubscriberKey} {w : Watermark}

theorem agreeOn_refl : l.AgreeOn about l := ⟨rfl, fun _ _ => rfl⟩

theorem agreeOn_trans (h : l.AgreeOn about m) (h' : m.AgreeOn about l') : l.AgreeOn about l' :=
  ⟨h'.rows.trans h.rows, fun k hk => (h'.records k hk).trans (h.records k hk)⟩

theorem agreeOn_above (h : l.AgreeOn about m) : m.above w = l.above w := by
  simp only [above, h.rows]

theorem agreeOn_position {i : String} (h : l.AgreeOn about m) (hi : σ i = τ i) :
    m.position τ i = l.position σ i := by
  simp only [position, h.rows, hi]

theorem agreeOn_update {f : Option Subscription → Option Subscription} (h : l.AgreeOn about m)
    (hn : ∀ k, about k → k.spelled σ = k.spelled τ) (hk : about k) :
    (l.update σ k f).AgreeOn about (m.update τ k f) where
  rows := h.rows
  records j hj := by simp only [update, h.records j hj, hn j hj, hn k hk]

theorem agreeOn_append {r : Row} {n : Int} (h : l.AgreeOn about m)
    (ht : ∀ t ∈ (Call.append r).texts, σ t = τ t) :
    (l.append (stored σ r n)).AgreeOn about (m.append (stored τ r n)) where
  rows := by
    have hd := ht r.destination (by simp [Call.texts])
    have hi := ht r.id (by simp [Call.texts])
    simp only [append, stored, h.rows, hd, hi]
  records := h.records

theorem agreeOn_put {s : Subscription} {b : Bool} (h : l.AgreeOn about m)
    (hn : ∀ k, about k → k.spelled σ = k.spelled τ) (hk : about s.key)
    (ht : ∀ t ∈ (Call.put s b).texts, σ t = τ t) :
    (l.put σ s b).AgreeOn about (m.put τ s b) := by
  have hd := ht s.destination (by simp [Call.texts])
  have hs := ht s.selector (by simp [Call.texts])
  have hstart : m.startFor b = l.startFor b := by simp only [startFor, h.rows]
  unfold put
  rw [hd, hs, hn _ hk, hstart]
  exact agreeOn_update h hn hk

/-- A call is answered the same where ledgers agree on what it is about, and they agree afterwards. -/
theorem agreeOn_answers {f g : Nat → List Row → List Row} {c : Call} {a b : c.Reply}
    (hc : c.TakenAlike σ τ f g about l.rows.length) (h : l.AgreeOn about m)
    (hlist : ∀ x : Subscription, seen x.key →
      ((∃ k, l.record k = some x) ↔ ∃ k, m.record k = some x))
    (ha : l.Yields σ f c a l') (hb : m.Yields τ g c b m') :
    c.Agree seen a b ∧ l'.AgreeOn about m' := by
  obtain ⟨hkey, hnames, htexts, hlimit⟩ := hc
  cases c with
  | append r =>
    have hid : σ r.id = τ r.id := htexts _ (by simp [Call.texts])
    have hnext : m.next = l.next := by simp only [next, h.rows]
    obtain ⟨x, rfl, ⟨hp, hx, rfl⟩ | ⟨hp, rfl, rfl⟩⟩ := ha <;>
      obtain ⟨y, rfl, ⟨hq, hy, rfl⟩ | ⟨hq, rfl, rfl⟩⟩ := hb
    · exact ⟨⟨x, y, rfl, rfl, Or.inr ⟨hx, hy⟩⟩, h⟩
    · rw [agreeOn_position h hid] at hq
      simp [hq] at hp
    · rw [agreeOn_position h hid] at hq
      simp [hp] at hq
    · rw [hnext]
      exact ⟨⟨_, _, rfl, rfl, Or.inl rfl⟩, agreeOn_append h htexts⟩
  | resolve d i =>
    obtain ⟨rfl, rfl⟩ := ha
    obtain ⟨rfl, rfl⟩ := hb
    rw [agreeOn_position h (htexts i (by simp [Call.texts]))]
    exact ⟨rfl, h⟩
  | persist d k w =>
    obtain ⟨rfl, rfl⟩ := ha
    obtain ⟨rfl, rfl⟩ := hb
    exact ⟨rfl, agreeOn_update h hnames (hkey k rfl)⟩
  | load d k =>
    obtain ⟨rfl, rfl⟩ := ha
    obtain ⟨rfl, rfl⟩ := hb
    rw [h.records k (hkey k rfl)]
    exact ⟨rfl, h⟩
  | scanAfter d k w n =>
    obtain ⟨rfl, rfl⟩ := ha
    obtain ⟨rfl, rfl⟩ := hb
    simp only [h.records k (hkey k rfl), agreeOn_above h]
    refine ⟨congrArg (fun rows => Scan.mk rows _) (hlimit d k w n _ rfl ?_), h⟩
    cases l'.record k with
    | none => exact Nat.zero_le _
    | some x => exact List.length_filter_le ..
  | scanAll d k =>
    obtain ⟨rfl, rfl⟩ := ha
    obtain ⟨rfl, rfl⟩ := hb
    simp only [h.records k (hkey k rfl), agreeOn_above h]
    exact ⟨rfl, h⟩
  | count d k =>
    obtain ⟨rfl, rfl⟩ := ha
    obtain ⟨rfl, rfl⟩ := hb
    simp only [h.records k (hkey k rfl), agreeOn_above h]
    exact ⟨rfl, h⟩
  | put s retroactive =>
    obtain ⟨rfl, rfl⟩ := ha
    obtain ⟨rfl, rfl⟩ := hb
    exact ⟨rfl, agreeOn_put h hnames (hkey _ rfl) htexts⟩
  | get d k =>
    obtain ⟨rfl, rfl⟩ := ha
    obtain ⟨rfl, rfl⟩ := hb
    rw [h.records k (hkey k rfl)]
    exact ⟨rfl, h⟩
  | delete d k =>
    obtain ⟨rfl, rfl⟩ := ha
    obtain ⟨rfl, rfl⟩ := hb
    exact ⟨rfl, agreeOn_update h hnames (hkey k rfl)⟩
  | list d =>
    obtain ⟨⟨xs, rfl, -, hxs⟩, rfl⟩ := ha
    obtain ⟨⟨ys, rfl, -, hys⟩, rfl⟩ := hb
    refine ⟨⟨xs, ys, rfl, rfl, fun x hx => ?_⟩, h⟩
    rw [hxs, hys]
    exact hlist x hx

end Ledger
end DurableTopic.Repository
namespace DurableTopic.Store

/-- What a call asks for is about the subscriber that it names, or about none. -/
theorem Request.makes_key {d : String} {r : Request} {c : Repository.Call} {k : SubscriberKey}
    (h : r.Makes d c) (hk : c.key? = some k) : r.key? = some k := by
  cases r <;> simp only [Makes] at h
  case publish => obtain ⟨rfl, -⟩ := h; cases hk
  case acknowledge =>
    rcases h with rfl | ⟨w, rfl⟩
    · cases hk
    · cases hk
      rfl
  case recoverNext => rcases h with rfl | ⟨w, rfl⟩ <;> (cases hk; rfl)
  all_goals subst h; cases hk <;> rfl

end DurableTopic.Store

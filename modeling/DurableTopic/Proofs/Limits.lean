import DurableTopic.Proofs.Clients
import DurableTopic.Proofs.Listening
import DurableTopic.Proofs.Sequences
import Mathlib.Algebra.Group.Int.Defs
import Mathlib.Algebra.Group.Nat.Defs
/-! What becomes of the limit of a scan. Statements carry it as a signed word, so that the larger half
of all limits becomes negative there. To an embedded database that is no limit, which is as good,
since no topic has as many messages; to a database server it is a mistake. -/
namespace DurableTopic

namespace Repository

/-- A limit as a statement carries it: as it is, or with the larger half of all limits below zero. -/
theorem limitWord_cases {limit : Nat} (h : limit < UInt64.size) :
    limitWord limit = if limit < 2 ^ 63 then (limit : Int) else limit - 2 ^ 64 := by
  simp only [UInt64.size] at h
  rw [limitWord, Int64.toInt_ofNat', Int.bmod_def]
  simp only [Int64.size]
  split <;> split <;> omega

/-- A statement lets nothing through, or cannot be run, unless its limit is positive. -/
theorem limitWord_pos {limit : Nat} (h : limit < UInt64.size) :
    1 ≤ limitWord limit ↔ 1 ≤ limit ∧ limit < 2 ^ 63 := by
  have hcases := limitWord_cases h
  simp only [UInt64.size] at h
  split at hcases <;> omega

/-- Numbers that ascend between two bounds are not more than fit there. -/
theorem length_between {rows : List Row} {low high : Int}
    (ha : rows.Pairwise fun a b => a.sequence < b.sequence)
    (hb : ∀ r ∈ rows, low < r.sequence ∧ r.sequence < high) (h : low < high) :
    (rows.length : Int) < high - low := by
  induction rows generalizing low with
  | nil => simpa using h
  | cons r rows ih =>
    obtain ⟨hfirst, ha⟩ := List.pairwise_cons.1 ha
    obtain ⟨hlow, hhigh⟩ := hb r List.mem_cons_self
    have hrest := ih ha (fun x hx => ⟨hfirst x hx, (hb x (List.mem_cons_of_mem r hx)).2⟩) hhigh
    rw [List.length_cons]
    omega

namespace Ledger

/-- Every sequence number is a signed word. -/
def Worded (l : Ledger) : Prop := ∀ r ∈ l.rows, r.sequence < 2 ^ 63

theorem length_worded {l : Ledger} (h : l.Sound) (hw : l.Worded) : l.rows.length < 2 ^ 63 := by
  have := length_between h.ascending (fun r hr => ⟨h.positive r hr, hw r hr⟩) (by decide)
  omega

end Ledger

variable {r m e : Repository} {d : String} {l l' : Ledger} {k : SubscriberKey} {w : Watermark}
  {limit : Nat}

/-- What a transaction sees is in order. -/
theorem active_sound (hs : r.Sound d) (hl : r.stand d = .active l) : l.Sound := by
  cases r with
  | memory ts t =>
    cases t with
    | none => cases hl
    | some x =>
      by_cases hp : x.phase = .active
      · simp only [stand, hp, if_true, Stand.active.injEq] at hl
        exact hl ▸ Memory.ledger_sound (hs.2 x rfl hp)
      · simp [stand, hp] at hl
  | embedded c t =>
    cases t with
    | none => cases hl
    | some x =>
      cases hf : x.finished with
      | true => simp [stand, hf] at hl
      | false =>
        simp only [stand, hf, Bool.false_eq_true, if_false, Stand.active.injEq] at hl
        exact hl ▸ hs.1

/-- A scan of any backend that is at hand gives the first messages, up to its limit. -/
theorem scan_limited (ht : r.Tidy d) (hs : r.Sound d) (hl : r.stand d = .active l)
    (hw : l.Worded) (hsize : limit < UInt64.size) :
    (r.perform (.scanAfter d k w limit)).1 = { rows := (l.unread k w).take limit } := by
  obtain ⟨-, -, _, -, hy, -⟩ :=
    perform_yields (c := .scanAfter d k w limit) ht hs hl rfl trivial
  have hfew : (l.unread k w).length < 0x8000000000000000 :=
    Nat.lt_of_le_of_lt Store.length_unread (Ledger.length_worded (active_sound hs hl) hw)
  rw [hy]
  exact congrArg (fun rows => ({ rows } : Scan)) (Store.first_take hsize (.inr hfew))

namespace Server.Handle

variable {h : Handle} {link : Link}

/-- A statement is sent, and the next answer that is foreseen is the answer to it. -/
theorem ask_on (p : Prepared) (ps : List Parameter) : (h.ask p ps).on link =
    ((Link.pop link.answers.replies []).1,
      { link with
        answers := { link.answers with replies := (Link.pop link.answers.replies []).2 }
        sent := link.sent ++ [.queried h.connection (.prepared p) ps] }) := rfl

theorem scanAfter_sent (hl : limit ≠ 0) :
    ((h.perform (.scanAfter d k w limit)).run link).2.sent = link.sent ++
      [.queried h.connection (.prepared .scanAfter)
        (keyOf d k ++ [.int w.sequence, .int (limitWord limit)])] := by
  simp only [perform, if_neg hl]
  rw [scanning_link, ask_on]

theorem scanning_refused {x : Request (List Cells)} {refusal : Refusal}
    (hx : (x.on link).1 = .error refusal) (hc : refusal.cause ≠ .misuse) :
    ((scanning x).run link).1 = ⟨[], .ok refusal.status⟩ := by
  simp only [Request.on, scanning, StateT.run_bind] at hx ⊢
  generalize x.run.run link = y at hx ⊢
  obtain ⟨a, link'⟩ := y
  obtain rfl : a = .error refusal := hx
  exact congrArg (fun outcome => (⟨[], outcome⟩ : Scan)) (if_neg hc)

/-- A scan that the server refuses visits nothing, and reports why. -/
theorem scanAfter_refused {refusal : Refusal} {replies : List (Except Refusal (List Cells))}
    (hl : limit ≠ 0) (hr : link.answers.replies = .error refusal :: replies)
    (hc : refusal.cause ≠ .misuse) :
    ((h.perform (.scanAfter d k w limit)).run link).1 = ⟨[], .ok refusal.status⟩ := by
  simp only [perform, if_neg hl]
  exact scanning_refused (by rw [ask_on, hr]; rfl) hc

end Server.Handle

/-- Two backends that hold the same messages, and the same record of a subscriber, give it the same
messages: as many as there are, up to any limit that a word holds. A database server is sent that limit
as it is if it is in the smaller half, and otherwise one that is negative. -/
theorem scan_limits {h : Server.Handle} {link : Server.Link} (hm : m.Tidy d) (hm' : m.Sound d)
    (hml : m.stand d = .active l) (he : e.Tidy d) (he' : e.Sound d) (hel : e.stand d = .active l')
    (hrows : l'.rows = l.rows) (hrecord : l'.record k = l.record k) (hw : l.Worded)
    (hlimit : 1 ≤ limit) (hsize : limit < UInt64.size) :
    (m.perform (.scanAfter d k w limit)).1 = { rows := (l.unread k w).take limit } ∧
    (e.perform (.scanAfter d k w limit)).1 = { rows := (l.unread k w).take limit } ∧
    ∃ n, ((h.perform (.scanAfter d k w limit)).run link).2.sent = link.sent ++
        [.queried h.connection (.prepared .scanAfter)
          (Server.Handle.keyOf d k ++ [.int w.sequence, .int n])] ∧
      n = (if limit < 2 ^ 63 then (limit : Int) else limit - 2 ^ 64) ∧
      (1 ≤ n ↔ limit < 2 ^ 63) := by
  have hunread : l'.unread k w = l.unread k w := by
    simp only [Ledger.unread, Ledger.above, hrows, hrecord]
  refine ⟨scan_limited hm hm' hml hw hsize, ?_, _, Server.Handle.scanAfter_sent (by omega),
    limitWord_cases hsize, ?_⟩
  · rw [scan_limited he he' hel (fun r hr => hw r (hrows ▸ hr)) hsize, hunread]
  · rw [limitWord_pos hsize]
    exact and_iff_right hlimit

/-- Two messages and a subscriber who has read neither. -/
def twoStored : List Call :=
  [.append { destination := "orders", id := "m1" }, .append { destination := "orders", id := "m2" },
    .put ⟨"orders", ⟨"A", none⟩, "", true, .start⟩ true]

theorem twoStored_ready (h : r.Fresh) : (r.begin.2.performAll twoStored).Tidy "orders" ∧
    (r.begin.2.performAll twoStored).Sound "orders" := by
  obtain ⟨hr, hn⟩ := fresh_holds h
  obtain ⟨-, hb, hv⟩ := begin_holds hr hn
  have hc : ∀ c ∈ twoStored, c.Named := by simp [twoStored, Call.Named]
  obtain ⟨hp, -⟩ := performAll_holds hb hv (fun _ => dense_nil) hc
  exact ⟨hp.tidy "orders", hp.sound "orders"⟩

/-- The greatest of all limits. -/
def greatest : Call := .scanAfter "orders" ⟨"A", none⟩ .start 18446744073709551615

/-- What a transaction on a new link is asked. -/
def greatestSent : List Server.Event :=
  (((⟨1, false, false⟩ : Server.Handle).perform greatest).run (.ofAddress "db" 1)).2.sent

theorem greatest_scans : ((inMemory.begin.2.performAll twoStored).perform greatest).1 =
      (((onDatabase none).begin.2.performAll twoStored).perform greatest).1 ∧
    ∃ n, greatestSent = [.queried 1 (.prepared .scanAfter)
        (Server.Handle.keyOf "orders" ⟨"A", none⟩ ++ [.int (-1), .int n])] ∧ n = -1 := by
  obtain ⟨hm, hm'⟩ := twoStored_ready .inMemory
  obtain ⟨he, he'⟩ := twoStored_ready (.onDatabase none)
  obtain ⟨ha, hb, n, hsent, hn, -⟩ := @scan_limits _ _ "orders" _ _ ⟨"A", none⟩ .start
    18446744073709551615 ⟨1, false, false⟩ (.ofAddress "db" 1) hm hm' rfl he he' rfl rfl rfl
    (by unfold Ledger.Worded; decide) (by decide) (by decide)
  exact ⟨ha.trans hb.symm, n, hsent, hn⟩

/-- A server is asked for -1 messages, where memory gives both. -/
theorem greatest_limit_negative : (((inMemory.begin.2.performAll twoStored).perform greatest).1 :
      Scan).rows.map (·.id) = ["m1", "m2"] ∧
    greatestSent = [.queried 1 (.prepared .scanAfter)
      [.text "orders", .text "A", .text "", .flag false, .int (-1), .int (-1)]] := by
  constructor
  · decide +kernel
  · decide +kernel

end Repository
end DurableTopic

import DurableTopic.Proofs.Histories
/-! Where messages come from. A store that holds only messages that were published holds no others,
whatever is called afterwards. -/
namespace DurableTopic

namespace Repository

/-- Every row was published to a destination, under an id, and is kept in the way of the backend. -/
def Ledger.Published (spell : String → String) (d : String) (l : Ledger) : Prop :=
  ∀ r ∈ l.rows, ∃ m : Message, m.identity.value ≠ "" ∧
    r = Ledger.stored spell (Store.rowOf d m) r.sequence

theorem Ledger.published_of_rows {spell : String → String} {d : String} {l l' : Ledger}
    (h : l.Published spell d) (hr : l'.rows = l.rows) : l'.Published spell d :=
  fun r hm => h r (hr ▸ hm)

theorem Ledger.answers_same_rows {spell : String → String} {l l' : Ledger} {c : Call} {a : c.Reply}
    (h : l.Answers spell c a l') (hc : ∀ r, c ≠ .append r) : l'.rows = l.rows := by
  cases c with
  | append r => exact absurd rfl (hc r)
  | persist | put | delete => rcases wrote_or_same h with rfl | rfl <;> rfl
  | _ => rw [answers_read h rfl]

end Repository
namespace Store

open Cursor (Thread)
open Repository (Ledger)

/-- A call that stores a row stores the message that is published, which has an id. -/
def Request.Stores (d : String) : Request → Effect → Prop
  | publish m, .call (.append row) => m.identity.value ≠ "" ∧ row = rowOf d m
  | _, _ => True

/-- A message with an id, as it is stored. -/
def IsMessage (d : String) (row : Row) : Prop :=
  ∃ m : Message, m.identity.value ≠ "" ∧ row = rowOf d m

/-- A call in progress stores nothing but the message that it publishes. -/
structure Frame.Truthful (d : String) (f : Frame) : Prop where
  rest : f.rest.Obeys (fun _ => f.request.Stores d) (fun _ _ => True) f.past
  past : ∀ row a, ⟨.call (.append row), a⟩ ∈ f.past → IsMessage d row

/-- A store that holds published messages, and calls in progress that add no others. -/
structure System.Truthful (s : System) : Prop where
  ledger : s.host.ledger.Published s.host.spell s.host.destination
  frames : ∀ t, ∀ f ∈ s.stack t, f.Truthful s.host.destination

section

variable {d : String} {r : Request} {p : List Exchange} {e : Effect}

theorem stores_told (h : e.isTold) : r.Stores d e := by
  unfold Request.Stores
  split
  · cases h
  · trivial

theorem operation_stores :
    (r.operation d).Obeys (fun _ => r.Stores d) (fun _ _ => True) p := by
  cases r with
  | publish m =>
    exact publish_obeys_of (fun _ _ => stores_told) (fun _ => ⟨trivial, trivial, trivial⟩)
      fun _ hid => ⟨hid, rfl⟩
  | _ => exact Operation.obeys_all (fun _ _ => trivial) fun _ _ => trivial

end

/-- A transaction that stored published messages sees no others. -/
theorem published_replays {spell : String → String} {d : String} {base l : Ledger}
    {p : List Exchange} (h : Replays spell base p l) (hb : base.Published spell d)
    (hp : ∀ row a, ⟨.call (.append row), a⟩ ∈ p → IsMessage d row) : l.Published spell d := by
  induction h with
  | begin => exact hb
  | @call p l l' c a h ha hf ih =>
    have ih := ih fun row a hm => hp row a (List.mem_append_left _ hm)
    by_cases hc : ∃ row, c = .append row
    · obtain ⟨row, rfl⟩ := hc
      obtain ⟨m, hid, rfl⟩ := hp row a (by simp)
      rcases ha with ⟨x, -, -, -, -, rfl⟩ | ⟨-, rfl⟩
      · intro r hr
        rcases List.mem_append.1 hr with hr | hr
        · exact ih r hr
        · exact ⟨m, hid, by rw [List.mem_singleton.1 hr]; rfl⟩
      · exact ih
    · exact Ledger.published_of_rows ih
        (Ledger.answers_same_rows ha fun row hrow => hc ⟨row, hrow⟩)
  | other h _ _ ih => exact ih fun row a hm => hp row a (List.mem_append_left _ hm)

section

variable {t : Thread} {s s' : System} {h' : Host} {n : Nat} {r : Request} {past : List Exchange}
  {e : Effect} {a : e.Reply} {next : e.Reply → Operation (Except Failure r.Result)}
  {below : List Frame}

theorem truthful_next {d : String} (hf : (Frame.mk n r past (.perform e next)).Truthful d)
    (hcall : ∀ c, e = .call c → r.mayCall d c) :
    (Frame.mk n r (past ++ [⟨e, a⟩]) (next a)).Truthful d := by
  refine ⟨hf.rest.2 a, fun row b hm => ?_⟩
  rcases List.mem_append.1 hm with hm | hm
  · exact hf.past row b hm
  · cases List.mem_singleton.1 hm
    have hmay := hcall _ rfl
    have hstores := hf.rest.1
    cases r with
    | publish m => exact ⟨m, hstores⟩
    | _ => cases hmay

theorem truthful_ask (hs : s.Sound) (hrec : s.Recorded) (ht : s.Truthful)
    (hst : s.stack t = ⟨n, r, past, .perform e next⟩ :: below) (hr : Replies t s.host e a h') :
    System.Truthful
      { s.setStack t (⟨n, r, past ++ [⟨e, a⟩], next a⟩ :: below) with host := h' } := by
  obtain ⟨hd, hsp, -, hg⟩ := ask_granted hs hst hr
  have hmem : Frame.mk n r past (.perform e next) ∈ s.stack t := by
    rw [hst]; exact List.mem_cons_self
  have hf := hs.frames t _ hmem
  have hsame : h'.ledger = s.host.ledger ∨ h'.ledger.Published s.host.spell s.host.destination := by
    cases e with
    | begin => exact Or.inl hg.2.1
    | call => exact Or.inl hg.2.1
    | close => exact Or.inl hg.2
    | commit =>
      obtain ⟨-, l, hl, ⟨-, hleg, -⟩ | ⟨-, hleg, -⟩⟩ := hg
      · obtain ⟨l', hl', hrep, -⟩ := replays_commit hs hrec hst
        obtain rfl : l' = l := by simpa [hl'] using hl
        exact Or.inr (hleg ▸ published_replays hrep ht.ledger (ht.frames t _ hmem).past)
      · exact Or.inl hleg
    | _ => exact Or.inl (ledger_of_backend hg.1 hd).1
  refine ⟨?_, fun u g hgu => ?_⟩
  · change h'.ledger.Published h'.spell h'.destination
    rw [hsp, hd]
    rcases hsame with hsame | hpub
    · exact hsame ▸ ht.ledger
    · exact hpub
  · change g.Truthful h'.destination
    rw [hd]
    rcases mem_setStack hgu with ⟨rfl, rfl⟩ | hother
    · refine truthful_next (ht.frames u _ hmem) ?_
      rintro c rfl
      exact hf.follows.1.2.1
    · exact ht.frames u g (mem_of_other hst hother)

theorem truthful_step {ev : Event} (hs : s.Sound) (hrec : s.Recorded) (ht : s.Truthful)
    (h : Step s ev s') : s'.Truthful := by
  cases h with
  | start r hl =>
    refine ⟨ht.ledger, fun u g hg => ?_⟩
    rcases mem_setStack hg with ⟨rfl, rfl⟩ | ⟨rfl, hg⟩ | ⟨-, hg⟩
    · exact ⟨operation_stores, by simp⟩
    · exact ht.frames _ _ hg
    · exact ht.frames _ _ hg
  | ask hst hr => exact truthful_ask hs hrec ht hst hr
  | finish hst =>
    exact ⟨ht.ledger, fun u g hg => ht.frames u g (mem_of_finished hst hg)⟩
  | disturb hf => exact ⟨ht.ledger, ht.frames⟩

/-- What a store holds was published, whatever happens. -/
theorem truthful_run {tr : List Event} (hs : s.Sound) (hrec : s.Recorded) (ht : s.Truthful)
    (h : Run Step s tr s') : s'.Truthful := by
  induction h with
  | nil => exact ht
  | snoc h he ih => exact truthful_step (sound_run hs h) (recorded_run hs hrec h) ih he

theorem truthful_opened (h : s.Opened)
    (hp : s.host.ledger.Published s.host.spell s.host.destination) : s.Truthful :=
  ⟨hp, by simp [h.stack]⟩

end

end Store
end DurableTopic

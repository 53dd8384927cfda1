import DurableTopic.Proofs.Concurrent
import DurableTopic.Proofs.Ownership
/-! Which calls have a transaction open. It is given up on every path before a listener or the cache
of cursors is asked for anything, and so whoever has one waits for nothing. -/
namespace DurableTopic

namespace Repository

variable {r : Repository} {b : Faulty} {c : Call}

/-- A transaction object is there exactly when the transaction was started. -/
theorem hasTransaction_begin : r.begin.2.hasTransaction = r.begin.1.isOk := by
  cases r with
  | memory => rfl
  | embedded c t =>
    rcases hb : Embedded.begin c with ⟨f | h, c'⟩ <;>
      simp [begin, hb, hasTransaction, Except.isOk, Except.toBool]

theorem hasTransaction_perform : (r.perform c).2.hasTransaction = r.hasTransaction := by
  cases r with
  | memory ts t => cases t <;> rfl
  | embedded c t => cases t <;> rfl

theorem hasTransaction_commit : r.commit.2.hasTransaction = r.hasTransaction := by
  cases r with
  | memory ts t => cases t <;> rfl
  | embedded c t => cases t <;> rfl

namespace Faulty

theorem hasTransaction_begin (hn : b.repository.hasTransaction = false) :
    b.begin.2.repository.hasTransaction = b.begin.1.isOk := by
  unfold begin
  split
  · rename_i heq
    have hsame := congrArg (fun q => q.2.repository.hasTransaction) heq
    exact hsame.symm.trans hn
  · exact Repository.hasTransaction_begin

theorem hasTransaction_perform :
    (b.perform c).2.repository.hasTransaction = b.repository.hasTransaction := by
  have hforward : ∀ (b : Faulty) c, (b.forward c).2.repository.hasTransaction =
      b.repository.hasTransaction := fun b c => Repository.hasTransaction_perform
  have hunless : ∀ (b : Faulty) c f, (b.unlessHit c f).2.repository.hasTransaction =
      b.repository.hasTransaction := by
    intro b c f
    unfold unlessHit
    split
    · rfl
    · exact hforward b c
  unfold perform
  cases c with
  | scanAfter | scanAll => exact hforward _ _
  | _ => exact hunless _ _ _

end Faulty
end Repository
namespace Store

open Cursor (Thread Grant)

/-- Whether a transaction is open after an answer. -/
def Exchange.lock : Exchange → Bool → Bool
  | ⟨.begin, .ok ()⟩, _ => true
  | ⟨.close, _⟩, _ => false
  | _, b => b

/-- Whether a call has a transaction: it was given one, and has not given it up. -/
def Frame.inTransaction (f : Frame) : Bool := f.past.foldl (fun b x => x.lock b) false

/-- Whether the transaction of a repository is taken. -/
def Host.isLocked (h : Host) : Bool := h.backend.repository.hasTransaction

variable {t u : Thread} {h h' : Host} {e : Effect} {a : e.Reply} {s : Stage} {d : String}
  {r : Request} {x : Exchange} {n : Nat} {past : List Exchange} {f g : Frame}

theorem inTransaction_snoc {rest : Operation (Except Failure r.Result)} :
    (Frame.mk n r (past ++ [x]) rest).inTransaction =
      x.lock (past.foldl (fun b x => x.lock b) false) := by
  simp [Frame.inTransaction]

/-- What does not start or give up a transaction leaves it. -/
theorem lock_other (hb : e ≠ .begin) (hc : e ≠ .close) {b : Bool} :
    Exchange.lock ⟨e, a⟩ b = b := by
  cases e with
  | begin => exact absurd rfl hb
  | close => exact absurd rfl hc
  | _ => rfl

/-- A repository is locked by an answer that starts a transaction, and only until it is given up. -/
theorem isLocked_replies (hr : Replies t h e a h') :
    h'.isLocked = Exchange.lock ⟨e, a⟩ h.isLocked := by
  have ht := replies_affects hr
  unfold Host.isLocked
  generalize h.backend = b, h'.backend = b' at ht ⊢
  cases ht with
  | begin hn =>
    rw [Repository.Faulty.hasTransaction_begin hn]
    cases b.begin.1 with
    | error f => exact hn.symm
    | ok _ => rfl
  | call c => exact Repository.Faulty.hasTransaction_perform
  | commit => exact Repository.hasTransaction_commit
  | commitFails f => rfl
  | close => exact Repository.hasTransaction_close
  | other hb _ _ hcl => exact (lock_other hb hcl).symm

/-- An answer that leaves no transaction to a call that had none leaves none to another. -/
theorem lock_mono {b b' : Bool} (hb : b → b') (h : x.lock b) : x.lock b' := by
  rcases x with ⟨e, a⟩
  cases e with
  | begin => rcases a with f | _ <;> first | exact hb h | rfl
  | close => cases h
  | _ => exact hb h

/-- Only the start of a transaction gives one to a call that had none. -/
theorem begun_of_lock (h : x.lock false) : ∃ a, x = ⟨.begin, a⟩ := by
  rcases x with ⟨e, a⟩
  cases e with
  | begin => exact ⟨a, rfl⟩
  | _ => cases h

/-- A call has a transaction in the phases in which it may make calls on the repository or has made
them. -/
theorem lock_next {s : Stage} (hp : s.Permits d r e) {b : Bool}
    (hb : b ↔ s.phase ≠ .closed) :
    Exchange.lock ⟨e, a⟩ b ↔ (s.next ⟨e, a⟩).phase ≠ .closed := by
  cases e with
  | begin => rcases a with f | _ <;> simp [Exchange.lock, Stage.next, hb]
  | commit =>
    have hopen : s.phase ≠ .closed := by simp [hp.1]
    rcases a with f | _ <;> simp [Exchange.lock, Stage.next, hb, hopen]
  | close => simp [Exchange.lock, Stage.next]
  | _ =>
    rw [Stage.next_phase (by simp) (by simp) (by simp)]
    exact hb

/-- Where a call asks its listener or the cache of cursors, or is done. -/
def Frame.Outside (f : Frame) : Prop :=
  f.atListener ∨ (∃ c, f.asks c) ∨ ∃ a, f.rest = .done a

/-- What else holds of a store and its threads: calls wait for their listeners while these make
calls, the transaction that is open is that of one of the calls, and leases are those of passes. -/
structure Concurrent.Disciplined (s : Concurrent) : Prop where
  waiting : ∀ t, (s.store.stack t).Pairwise fun _ g => g.atListener
  phased : ∀ t, ∀ f ∈ s.store.stack t, f.inTransaction ↔ f.stage.phase ≠ .closed
  taken : ∀ t, ∀ f ∈ s.store.stack t, f.inTransaction → s.store.host.isLocked
  opened : s.store.host.isLocked → ∃ t, ∃ f ∈ s.store.stack t, f.inTransaction
  single : ∀ t u, ∀ f ∈ s.store.stack t, ∀ g ∈ s.store.stack u, f.inTransaction →
    g.inTransaction → t = u ∧ f.number = g.number
  owned : s.threads.Owned
  leased : ∀ gr ∈ s.threads.grants, ∃ f ∈ s.store.stack gr.thread,
    f.stage.lease = some gr.slot ∧ f.request.batches gr.key

namespace Concurrent

variable {s s' : Concurrent} {tr : List Event} {o : Option Event} {gr : Grant}

/-- A call asks its listener and the cache of cursors outside of its transaction, and has none when
it is done. -/
theorem closed_outside (hs : s.Sound tr) (hf : f ∈ s.store.stack t) (ho : f.Outside) :
    f.stage.phase = .closed := by
  obtain ⟨d, hd⟩ := hs.follows t f hf
  obtain ⟨n, r, past, rest⟩ := f
  cases rest with
  | done a => exact hd.1
  | perform e next =>
    have hp := hd.1
    rcases ho with ho | ⟨c, hc⟩ | ⟨a, ha⟩
    · cases e with
      | hasCapacity => exact hp.phase
      | offer => exact hp.1.phase
      | _ => cases ho
    · cases e with
      | acquire | reset | evict | peek => exact hp.1
      | _ => cases hc
    · cases ha

theorem isLocked_step (h : Step s (some (.ask t n r x)) s') :
    s'.store.host.isLocked = x.lock s.store.host.isLocked := by
  cases h with
  | plain h => cases h with | ask _ hr => exact isLocked_replies hr
  | answer hst hc => exact (lock_other (by rintro rfl; cases hc) (by rintro rfl; cases hc)).symm
  | keep => rfl
  | release => rfl

theorem isLocked_kept (h : Step s o s') (ho : ∀ t n r x, o ≠ some (.ask t n r x)) :
    s'.store.host.isLocked = s.store.host.isLocked := by
  cases h with
  | plain h =>
    cases h with
    | ask => exact absurd rfl (ho _ _ _ _)
    | _ => rfl
  | begin => rfl
  | move => rfl
  | _ => exact absurd rfl (ho _ _ _ _)

/-- Whoever starts a transaction has waited until there was none. -/
theorem unlocked_of_begin {a : Effect.begin.Reply}
    (h : Step s (some (.ask t n r ⟨.begin, a⟩)) s') : s.store.host.isLocked = false := by
  cases h with
  | plain h => cases h with | ask _ hr => cases hr with | host _ hb => exact hb rfl
  | answer _ hc => cases hc

/-- The calls that are there after the innermost one is answered. -/
theorem answered_top (h : Step s (some (.ask t n r x)) s') : ∃ past next below,
    s.store.stack t = ⟨n, r, past, .perform x.effect next⟩ :: below ∧
      s'.store.stack t = ⟨n, r, past ++ [x], next x.reply⟩ :: below := by
  have ht := turns h (u := t)
  generalize s'.store.stack t = fs at ht
  cases ht with
  | kept he => exact absurd rfl (he n r x)
  | started he => cases he
  | answered hst he =>
    cases he
    exact ⟨_, _, _, hst, rfl⟩
  | finished _ he => exact absurd rfl (he n r x)

/-- A call in progress stays as it is, or is done, or is answered now. -/
theorem goes (h : Step s o s') (hf : f ∈ s.store.stack t) :
    f ∈ s'.store.stack t ∨ (∃ a, f.rest = .done a) ∨
      ∃ x next, f.rest = .perform x.effect next ∧ o = some (.ask t f.number f.request x) ∧
        ⟨f.number, f.request, f.past ++ [x], next x.reply⟩ ∈ s'.store.stack t := by
  by_cases hask : ∃ n r x, o = some (.ask t n r x)
  · obtain ⟨n, r, x, rfl⟩ := hask
    obtain ⟨past, next, below, hst, hst'⟩ := answered_top h
    rw [hst] at hf
    rw [hst']
    rcases List.mem_cons.1 hf with rfl | hf
    · exact Or.inr (Or.inr ⟨x, next, rfl, rfl, List.mem_cons_self⟩)
    · exact Or.inl (List.mem_cons_of_mem _ hf)
  · cases h with
    | plain h =>
      rcases frame_step h hf with hkept | hdone | ⟨x, next, -, rfl, -⟩
      · exact Or.inl hkept
      · exact Or.inr (Or.inl hdone)
      · exact absurd ⟨_, _, _, rfl⟩ hask
    | begin => exact Or.inl hf
    | move => exact Or.inl hf
    | @answer u | @keep u | @release u =>
      have hu : t ≠ u := by
        rintro rfl
        exact hask ⟨_, _, _, rfl⟩
      exact Or.inl (by simpa [System.setStack, hu] using hf)

theorem waiting_step (hd : s.Disciplined) (h : Step s o s') :
    (s'.store.stack t).Pairwise fun _ g => g.atListener := by
  have hw := hd.waiting t
  have hlistens : ∀ n r, o = some (.start t n r) → ∀ f ∈ (s.store.stack t).head?, f.atListener := by
    rintro n r rfl
    cases h with | plain h => cases h with | start _ hl => exact hl
  have ht := turns h (u := t)
  generalize s'.store.stack t = fs at ht
  cases ht with
  | kept => exact hw
  | started he =>
    refine List.pairwise_cons.2 ⟨fun g hg => ?_, hw⟩
    have hhead := hlistens _ _ he
    generalize s.store.stack t = fs at hg hw hhead
    cases fs with
    | nil => cases hg
    | cons f fs =>
      rcases List.mem_cons.1 hg with rfl | hg
      · exact hhead _ rfl
      · exact (List.pairwise_cons.1 hw).1 g hg
  | answered hst =>
    rw [hst, List.pairwise_cons] at hw
    exact List.pairwise_cons.2 hw
  | finished hst =>
    rw [hst, List.pairwise_cons] at hw
    exact hw.2

theorem phased_step (hs : s.Sound tr) (hd : s.Disciplined) (h : Step s o s')
    (hf : f ∈ s'.store.stack t) : f.inTransaction ↔ f.stage.phase ≠ .closed := by
  cases comes hs h hf with
  | kept hf => exact hd.phased t f hf
  | started => simp [Frame.inTransaction, Frame.stage]
  | @answered n r past x next below hst =>
    obtain ⟨d, hfollows⟩ := hs.follows t _ (top_mem hst)
    rw [stage_snoc, inTransaction_snoc]
    exact lock_next hfollows.1 (hd.phased t _ (top_mem hst))

theorem taken_step (hs : s.Sound tr) (hd : s.Disciplined) (h : Step s o s')
    (hf : f ∈ s'.store.stack t) (hin : f.inTransaction) : s'.store.host.isLocked := by
  cases comes hs h hf with
  | @kept f hf hn =>
    have hlocked := hd.taken t f hf hin
    by_cases hask : ∃ u m r x, o = some (.ask u m r x)
    · obtain ⟨u, m, r, ⟨e, a⟩, rfl⟩ := hask
      rw [isLocked_step h]
      obtain ⟨past, next, below, hst, -⟩ := answered_top h
      by_cases hclose : e = .close
      · -- Who gives the transaction up has it, and there is no other.
        subst hclose
        obtain ⟨d, hfollows⟩ := hs.follows u _ (top_mem hst)
        have hopen := (hd.phased u _ (top_mem hst)).2 hfollows.1
        obtain ⟨rfl, hnumber⟩ := hd.single t u f hf _ (top_mem hst) hin hopen
        exact absurd hnumber (hn _ _ _ rfl)
      · cases e with
        | close => exact absurd rfl hclose
        | begin => exact absurd hlocked (by simp [unlocked_of_begin h])
        | _ => exact hlocked
    · rw [isLocked_kept h fun u m r x he => hask ⟨u, m, r, x, he⟩]
      exact hlocked
  | started => cases hin
  | @answered n r past x next below hst he =>
    subst he
    rw [isLocked_step h]
    rw [inTransaction_snoc] at hin
    exact lock_mono (hd.taken t _ (top_mem hst)) hin

theorem opened_step (hs : s.Sound tr) (hd : s.Disciplined) (h : Step s o s')
    (hl : s'.store.host.isLocked) : ∃ t, ∃ f ∈ s'.store.stack t, f.inTransaction := by
  -- The call that has the transaction goes on with it, unless it gives it up.
  have hold : s.store.host.isLocked → (∀ t n r, o ≠ some (.ask t n r ⟨.close, ()⟩)) →
      ∃ t, ∃ f ∈ s'.store.stack t, f.inTransaction := by
    intro hlocked hclose
    obtain ⟨t, f, hf, hin⟩ := hd.opened hlocked
    rcases goes h hf with hf' | hdone | ⟨⟨e, a⟩, next, hrest, rfl, hf'⟩
    · exact ⟨t, f, hf', hin⟩
    · have hphase := closed_outside hs hf (Or.inr (Or.inr hdone))
      exact absurd hphase ((hd.phased t f hf).1 hin)
    · refine ⟨t, _, hf', ?_⟩
      rw [inTransaction_snoc]
      cases e with
      | close => exact absurd rfl (hclose _ _ _)
      | begin => exact absurd hlocked (by simp [unlocked_of_begin h])
      | _ => exact hin
  by_cases hask : ∃ t n r x, o = some (.ask t n r x)
  · obtain ⟨t, n, r, ⟨e, a⟩, rfl⟩ := hask
    have hl' := isLocked_step h ▸ hl
    cases e with
    | begin =>
      obtain ⟨past, next, below, hst, hst'⟩ := answered_top h
      refine ⟨t, _, by rw [hst']; exact List.mem_cons_self, ?_⟩
      rw [inTransaction_snoc]
      rw [unlocked_of_begin h] at hl'
      exact lock_mono (by simp) hl'
    | close => cases hl'
    | _ => exact hold hl' (by simp)
  · have hne : ∀ t n r x, o ≠ some (.ask t n r x) := fun t n r x he => hask ⟨t, n, r, x, he⟩
    exact hold (isLocked_kept h hne ▸ hl) fun t n r => hne t n r _

/-- A call that has a transaction had it before, or is the one that was given it. -/
theorem single_step (hs : s.Sound tr) (hd : s.Disciplined) (h : Step s o s')
    (hf : f ∈ s'.store.stack t) (hg : g ∈ s'.store.stack u) (hin : f.inTransaction)
    (hin' : g.inTransaction) : t = u ∧ f.number = g.number := by
  have hold : ∀ {t f}, f ∈ s'.store.stack t → f.inTransaction →
      (∃ f₀ ∈ s.store.stack t, f₀.number = f.number ∧ f₀.inTransaction) ∨
        ∃ r a, o = some (.ask t f.number r ⟨.begin, a⟩) := by
    intro t f hf hin
    cases comes hs h hf with
    | kept hf => exact Or.inl ⟨f, hf, rfl, hin⟩
    | started => cases hin
    | @answered n r past x next below hst he =>
      rw [inTransaction_snoc] at hin
      cases hb : past.foldl (fun b x => x.lock b) false with
      | true => exact Or.inl ⟨_, top_mem hst, rfl, hb⟩
      | false =>
        obtain ⟨a, rfl⟩ := begun_of_lock (hb ▸ hin)
        exact Or.inr ⟨r, a, he⟩
  have hbusy : ∀ {t u f₀ n r a}, o = some (.ask t n r ⟨.begin, a⟩) → f₀ ∈ s.store.stack u →
      ¬ f₀.inTransaction := by
    rintro t u f₀ n r a rfl hf₀ hin₀
    exact absurd (hd.taken u f₀ hf₀ hin₀) (by simp [unlocked_of_begin h])
  rcases hold hf hin with ⟨f₀, hf₀, hn, hin₀⟩ | ⟨r, a, he⟩ <;>
    rcases hold hg hin' with ⟨g₀, hg₀, hn', hin₀'⟩ | ⟨r', a', he'⟩
  · rw [← hn, ← hn']
    exact hd.single t u f₀ hf₀ g₀ hg₀ hin₀ hin₀'
  · exact absurd hin₀ (hbusy he' hf₀)
  · exact absurd hin₀' (hbusy he hg₀)
  · obtain ⟨ht, hn, -⟩ := Event.ask.inj (Option.some.inj (he.symm.trans he'))
    exact ⟨ht, hn⟩

theorem owned_step (hs : s.Sound tr) (hd : s.Disciplined) (h : Step s o s') :
    s'.threads.Owned := by
  rcases threads_step h with heq | ⟨ce, hce⟩
  · exact heq ▸ hd.owned
  · exact Cursor.Threads.owned_step hs.threads hd.owned hce

/-- A lease was there before, or a pass is given it. -/
theorem given (hs : s.Sound tr) (h : Step s o s') (hg : gr ∈ s'.threads.grants) :
    gr ∈ s.threads.grants ∨ ∃ n r a, a.slot = gr.slot ∧
      o = some (.ask gr.thread n r ⟨.acquire gr.key, a⟩) := by
  have hquiet : ∀ {ce threads}, Cursor.Step s.threads ce threads → gr ∈ threads.grants →
      (∀ t p q y, ce ≠ .answered t p q y) → gr ∈ s.threads.grants := by
    intro ce threads hce hmem hne
    rcases Cursor.Threads.given_step hs.threads hce hmem with hold | ⟨hnew, -⟩
    · exact hold
    · exact absurd hnew.event (hne _ _ _ _)
  cases h with
  | plain => exact Or.inl hg
  | begin _ _ h => exact Or.inl (hquiet h hg (by simp))
  | move h => exact Or.inl (hquiet h hg (by simp))
  | keep _ _ _ h => exact Or.inl (hquiet h hg (by simp))
  | release _ _ _ h => exact Or.inl (hquiet h hg (by simp))
  | @answer t n r past e next below c p y a threads hst hc ha h =>
    rcases Cursor.Threads.given_step hs.threads h hg with hold | ⟨hnew, -⟩
    · exact Or.inl hold
    · obtain ⟨rfl, rfl, -, rfl⟩ := Cursor.Event.answered.inj hnew.event
      cases e with
      | acquire k =>
        cases hc
        cases ha
        exact Or.inr ⟨n, r, _, rfl, rfl⟩
      | _ => cases hc

/-- Whoever releases a slot gives the lease on it back. -/
theorem released (hs : s.Sound tr) (h : Step s (some (.ask t n r ⟨.release gr.slot, ()⟩)) s')
    (hg : gr ∈ s.threads.grants) : gr ∉ s'.threads.grants := by
  cases h with
  | plain _ hc => cases hc
  | answer _ hc => cases hc
  | release _ _ hi h =>
    cases h with
    | release _ hmem =>
      obtain rfl := hs.threads.apart _ hmem gr hg hi
      simp [onCursors]

/-- A pass keeps its lease until it releases it, and is not done before. -/
theorem leased_step (hs : s.Sound tr) (hd : s.Disciplined) (h : Step s o s')
    (hg : gr ∈ s'.threads.grants) : ∃ f ∈ s'.store.stack gr.thread,
      f.stage.lease = some gr.slot ∧ f.request.batches gr.key := by
  rcases given hs h hg with hold | ⟨n, r, a, ha, rfl⟩
  · obtain ⟨f, hf, hl, hb⟩ := hd.leased gr hold
    obtain ⟨d, hfollows⟩ := hs.follows _ f hf
    rcases goes h hf with hf' | ⟨a, hdone⟩ | ⟨⟨e, a⟩, next, hrest, rfl, hf'⟩
    · exact ⟨f, hf', hl, hb⟩
    · rw [hdone] at hfollows
      have hnone := hfollows.2.1
      rw [hl] at hnone
      cases hnone
    · refine ⟨_, hf', ?_, hb⟩
      rw [hrest] at hfollows
      have hp := hfollows.1
      rw [stage_snoc]
      change (f.stage.next ⟨e, a⟩).lease = some gr.slot
      cases e with
      | acquire k =>
        have hnone := hp.2.1
        rw [hl] at hnone
        cases hnone
      | release i =>
        obtain rfl := Option.some.inj (hl.symm.trans hp.2.1)
        exact absurd hg (released hs h hold)
      | _ => rw [Stage.next_lease (by simp) (by simp), hl]
  · obtain ⟨past, next, below, hst, hst'⟩ := answered_top h
    obtain ⟨d, hfollows⟩ := hs.follows _ _ (top_mem hst)
    have hbatches := hfollows.1.2.2.2
    rw [hst']
    refine ⟨_, List.mem_cons_self, ?_, hbatches⟩
    rw [stage_snoc, ← ha]
    rfl

theorem disciplined_step (hs : s.Sound tr) (hd : s.Disciplined) (h : Step s o s') :
    s'.Disciplined where
  waiting _ := waiting_step hd h
  phased _ _ hf := phased_step hs hd h hf
  taken _ _ hf hin := taken_step hs hd h hf hin
  opened hl := opened_step hs hd h hl
  single _ _ _ hf _ hg hin hin' := single_step hs hd h hf hg hin hin'
  owned := owned_step hs hd h
  leased _ hg := leased_step hs hd h hg

theorem disciplined_opened {s : System} (h : s.Opened) : Disciplined ⟨s, {}⟩ where
  waiting := by simp [h.stack]
  phased := by simp [h.stack]
  taken := by simp [h.stack]
  opened hl := absurd (h.closed.symm.trans hl) (by simp)
  single := by simp [h.stack]
  owned := Cursor.Threads.owned_empty
  leased := by simp

theorem disciplined_run {s₀ : System} (h : s₀.Opened) (hr : Run ⟨s₀, {}⟩ tr s) :
    s.Disciplined := by
  generalize hs₀ : (⟨s₀, {}⟩ : Concurrent) = c₀ at hr
  induction hr with
  | nil => exact hs₀ ▸ disciplined_opened h
  | snoc hr he ih => exact disciplined_step (sound_run h (hs₀ ▸ hr)) ih he

end Concurrent
end Store
end DurableTopic

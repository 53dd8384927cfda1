import DurableTopic.Proofs.Exclusion
import DurableTopic.Proofs.Play
import DurableTopic.Proofs.Soundness
/-! Threads that also interleave between the steps of a call on the cache of cursors, so that a call
waits with the slot that it has found while others go on. -/
namespace DurableTopic.Store

open Cursor (Thread Grant)

/-- The call on the cache of cursors that is asked for. -/
def Effect.cursorCall : Effect → Option Cursor.Call
  | .acquire k => some (.acquire k)
  | .reset k => some (.reset k)
  | .evict k => some (.evict k)
  | .peek k => some (.peek k)
  | _ => none

/-- Whether the cache of cursors or a lease on a slot is used. -/
def Effect.usesCursors : Effect → Bool
  | .acquire _ | .reset _ | .evict _ | .peek _ | .keep .. | .release _ => true
  | _ => false

/-- What is made of the answer of the cache of cursors. -/
def Effect.replyOf : (e : Effect) → Cursor.Answer → Option e.Reply
  | .acquire _, .leased slot cursor => some ⟨slot, cursor⟩
  | .reset _, _ | .evict _, _ => some ()
  | .peek _, .shown w => some w
  | .peek _, _ => some none
  | _, _ => none

def Event.usesCursors : Event → Bool
  | .ask _ _ _ x => x.effect.usesCursors
  | _ => false

/-- A store, the threads that use it, and what they do on the cache of cursors. -/
structure Concurrent where
  store : System
  threads : Cursor.Threads := {}

namespace Concurrent

/-- The cache of cursors is changed. -/
def onCursors (s : Concurrent) (store : System) (threads : Cursor.Threads) : Concurrent :=
  ⟨{ store with host := { s.store.host with cursors := threads.cache } }, threads⟩

/-- One thing happens. A thread that is in a call on the cache of cursors does nothing else. -/
inductive Step : Concurrent → Option Event → Concurrent → Prop where
  | plain {s : Concurrent} {e : Event} {store : System} (h : Store.Step s.store e store)
      (hc : e.usesCursors = false) (hidle : ∀ t, e.thread? = some t → s.threads.calls t = none) :
      Step s (some e) { s with store }
  | begin {s : Concurrent} {t : Thread} {n : Nat} {r : Request} {past : List Exchange} {e : Effect}
      {next : e.Reply → Operation (Except Failure r.Result)} {below : List Frame}
      {c : Cursor.Call} {threads : Cursor.Threads}
      (hst : s.store.stack t = ⟨n, r, past, .perform e next⟩ :: below)
      (hc : e.cursorCall = some c) (h : Cursor.Step s.threads (.begun t c) threads) :
      Step s none { s with threads }
  | move {s : Concurrent} {t : Thread} {c p : Cursor.Call} {threads : Cursor.Threads}
      (h : Cursor.Step s.threads (.moved t c p) threads) :
      Step s none (s.onCursors s.store threads)
  | answer {s : Concurrent} {t : Thread} {n : Nat} {r : Request} {past : List Exchange}
      {e : Effect} {next : e.Reply → Operation (Except Failure r.Result)} {below : List Frame}
      {c p : Cursor.Call} {x : Cursor.Answer} {a : e.Reply} {threads : Cursor.Threads}
      (hst : s.store.stack t = ⟨n, r, past, .perform e next⟩ :: below)
      (hc : e.cursorCall = some c) (ha : e.replyOf x = some a)
      (h : Cursor.Step s.threads (.answered t c p x) threads) :
      Step s (some (.ask t n r ⟨e, a⟩))
        (s.onCursors (s.store.setStack t (⟨n, r, past ++ [⟨e, a⟩], next a⟩ :: below)) threads)
  | keep {s : Concurrent} {t : Thread} {n : Nat} {r : Request} {past : List Exchange} {i : Nat}
      {w : Watermark} {next : Unit → Operation (Except Failure r.Result)} {below : List Frame}
      {g : Grant} {threads : Cursor.Threads}
      (hst : s.store.stack t = ⟨n, r, past, .perform (.keep i w) next⟩ :: below)
      (ht : g.thread = t) (hi : g.slot = i) (h : Cursor.Step s.threads (.stored t g w) threads) :
      Step s (some (.ask t n r ⟨.keep i w, ()⟩))
        (s.onCursors (s.store.setStack t (⟨n, r, past ++ [⟨.keep i w, ()⟩], next ()⟩ :: below))
          threads)
  | release {s : Concurrent} {t : Thread} {n : Nat} {r : Request} {past : List Exchange} {i : Nat}
      {next : Unit → Operation (Except Failure r.Result)} {below : List Frame} {g : Grant}
      {threads : Cursor.Threads}
      (hst : s.store.stack t = ⟨n, r, past, .perform (.release i) next⟩ :: below)
      (ht : g.thread = t) (hi : g.slot = i) (h : Cursor.Step s.threads (.released g) threads) :
      Step s (some (.ask t n r ⟨.release i, ()⟩))
        (s.onCursors (s.store.setStack t (⟨n, r, past ++ [⟨.release i, ()⟩], next ()⟩ :: below))
          threads)

/-- Things that happen, from left to right. What happens inside a call on the cache of cursors does
not show. -/
inductive Run : Concurrent → List Event → Concurrent → Prop where
  | nil (s : Concurrent) : Run s [] s
  | snoc {s s' s'' : Concurrent} {tr : List Event} {e : Option Event} (h : Run s tr s')
      (he : Step s' e s'') : Run s (tr ++ e.toList) s''

/-- What becomes of the calls that a thread has in progress: nothing, one is made, the innermost one
is answered, or it is done. -/
inductive Turns (s : Concurrent) (e : Option Event) (t : Thread) : List Frame → Prop where
  | kept (he : ∀ n r x, e ≠ some (.ask t n r x)) : Turns s e t (s.store.stack t)
  | started {r : Request} (he : e = some (.start t s.store.count r)) :
      Turns s e t (⟨s.store.count, r, [], r.operation s.store.host.destination⟩ ::
        s.store.stack t)
  | answered {n : Nat} {r : Request} {past : List Exchange} {x : Exchange}
      {next : x.effect.Reply → Operation (Except Failure r.Result)} {below : List Frame}
      (hst : s.store.stack t = ⟨n, r, past, .perform x.effect next⟩ :: below)
      (he : e = some (.ask t n r x)) : Turns s e t (⟨n, r, past ++ [x], next x.reply⟩ :: below)
  | finished {f : Frame} {below : List Frame} (hst : s.store.stack t = f :: below)
      (he : ∀ n r x, e ≠ some (.ask t n r x)) : Turns s e t below

/-- Where a call in progress comes from: it does not move, is made now, or is answered now. -/
inductive Comes (s : Concurrent) (e : Option Event) (t : Thread) : Frame → Prop where
  | kept {f : Frame} (h : f ∈ s.store.stack t)
      (hn : ∀ n r x, e = some (.ask t n r x) → f.number ≠ n) : Comes s e t f
  | started {r : Request} (he : e = some (.start t s.store.count r)) :
      Comes s e t ⟨s.store.count, r, [], r.operation s.store.host.destination⟩
  | answered {n : Nat} {r : Request} {past : List Exchange} {x : Exchange}
      {next : x.effect.Reply → Operation (Except Failure r.Result)} {below : List Frame}
      (hst : s.store.stack t = ⟨n, r, past, .perform x.effect next⟩ :: below)
      (he : e = some (.ask t n r x)) : Comes s e t ⟨n, r, past ++ [x], next x.reply⟩

end Concurrent

/-- What a call in progress asks of the cache of cursors. -/
def Frame.asks (f : Frame) (c : Cursor.Call) : Prop :=
  match f.rest with
  | .perform e _ => e.cursorCall = some c
  | .done _ => False

/-- The listener of a pass, on the thread of the pass, has asked to delete the subscriber. -/
def Deleted (k : SubscriberKey) (t : Thread) (f : Frame) (tr : List Event) : Prop :=
  ∃ n, f.number < n ∧ .start t n (.unsubscribe k) ∈ tr

/-- What holds of a store and its threads after what has happened. A slot that a pass holds is given
up only by the pass's own listener. -/
structure Concurrent.Sound (tr : List Event) (s : Concurrent) : Prop where
  threads : s.threads.Sound
  numbered : ∀ t, ∀ f ∈ s.store.stack t, f.number < s.store.count
  ordered : ∀ t, (s.store.stack t).Pairwise fun f g => g.number < f.number
  started : ∀ t, ∀ f ∈ s.store.stack t, .start t f.number f.request ∈ tr
  follows : ∀ t, ∀ f ∈ s.store.stack t,
    ∃ d, f.rest.Follows d f.request (fun s _ => s.Rests) f.stage
  asking : ∀ t p, s.threads.calls t = some p →
    ∃ f below, s.store.stack t = f :: below ∧ f.asks p.request
  granted : ∀ t, ∀ f ∈ s.store.stack t, ∀ i, f.stage.lease = some i →
    ∃ g ∈ s.threads.grants, g.thread = t ∧ g.slot = i ∧ f.request.batches g.key
  unshared : ∀ t u, ∀ f ∈ s.store.stack t, ∀ g ∈ s.store.stack u, ∀ i,
    f.stage.lease = some i → g.stage.lease = some i → f.number = g.number
  marked : ∀ t, ∀ f ∈ s.store.stack t, ∀ i, f.stage.lease = some i →
    (s.threads.cache.slot i).GivenUp → ∃ k, f.request.batches k ∧ Deleted k t f tr

variable {s s' s'' : Concurrent} {tr : List Event} {e : Option Event} {t u : Thread} {f g : Frame}
  {i j n : Nat} {k : SubscriberKey} {r : Request} {past : List Exchange} {x : Exchange}
  {below fs : List Frame} {gr : Grant}

namespace Concurrent

theorem turns_of_answered {next : x.effect.Reply → Operation (Except Failure r.Result)}
    (hst : s.store.stack t = ⟨n, r, past, .perform x.effect next⟩ :: below) :
    s.Turns (some (.ask t n r x)) u
      ((s.store.setStack t (⟨n, r, past ++ [x], next x.reply⟩ :: below)).stack u) := by
  by_cases hu : u = t
  · subst hu
    simpa [System.setStack] using Turns.answered hst rfl
  · simpa [System.setStack, hu] using Turns.kept (by simp [Ne.symm hu])

theorem turns (h : Step s e s') : s.Turns e u (s'.store.stack u) := by
  cases h with
  | plain h =>
    cases h with
    | @start t r =>
      by_cases hu : u = t
      · subst hu
        simpa [System.setStack] using Turns.started rfl
      · simpa [System.setStack, hu] using Turns.kept (by simp)
    | ask hst => exact turns_of_answered (x := ⟨_, _⟩) hst
    | @finish t n r past a below hst =>
      by_cases hu : u = t
      · subst hu
        simpa [System.setStack] using Turns.finished hst (by simp)
      · simpa [System.setStack, hu] using Turns.kept (by simp)
    | disturb => exact .kept (by simp)
  | begin => exact .kept (by simp)
  | move => exact .kept (by simp)
  | answer hst => exact turns_of_answered (x := ⟨_, _⟩) hst
  | keep hst => exact turns_of_answered (x := ⟨.keep _ _, ()⟩) hst
  | release hst => exact turns_of_answered (x := ⟨.release _, ()⟩) hst

theorem top_mem (hst : s.store.stack t = g :: below) : g ∈ s.store.stack t := by
  rw [hst]
  exact List.mem_cons_self

theorem comes (hs : s.Sound tr) (h : Step s e s') (hf : f ∈ s'.store.stack u) :
    s.Comes e u f := by
  have ht := turns h (u := u)
  generalize s'.store.stack u = fs at ht hf
  cases ht with
  | kept he => exact .kept hf fun n r x hx => absurd hx (he n r x)
  | started he =>
    rcases List.mem_cons.1 hf with rfl | hf
    · exact .started he
    · exact .kept hf (by simp [he])
  | @answered n r _ _ _ _ hst he =>
    rcases List.mem_cons.1 hf with rfl | hf
    · exact .answered hst he
    · have ho := hs.ordered u
      rw [hst, List.pairwise_cons] at ho
      refine .kept (by rw [hst]; exact List.mem_cons_of_mem _ hf) fun m r x hx => ?_
      have hlt : f.number < n := ho.1 f hf
      obtain ⟨rfl, -⟩ : n = m ∧ _ := by simpa using he.symm.trans hx
      exact Nat.ne_of_lt hlt
  | finished hst he =>
    exact .kept (by rw [hst]; exact List.mem_cons_of_mem _ hf) fun n r x hx => absurd hx (he n r x)

theorem ordered_step (hs : s.Sound tr) (h : Step s e s') :
    (s'.store.stack u).Pairwise fun f g => g.number < f.number := by
  have ht := turns h (u := u)
  have ho := hs.ordered u
  generalize s'.store.stack u = fs at ht
  cases ht with
  | kept => exact ho
  | started => exact List.pairwise_cons.2 ⟨hs.numbered u, ho⟩
  | answered hst =>
    rw [hst, List.pairwise_cons] at ho
    exact List.pairwise_cons.2 ho
  | finished hst =>
    rw [hst, List.pairwise_cons] at ho
    exact ho.2

theorem count_step (h : Step s e s') : s.store.count ≤ s'.store.count ∧
    ∀ t n r, e = some (.start t n r) → s'.store.count = s.store.count + 1 := by
  cases h with
  | plain h => cases h <;> simp [System.setStack]
  | _ => simp [onCursors, System.setStack]

theorem numbered_step (hs : s.Sound tr) (h : Step s e s') (hf : f ∈ s'.store.stack u) :
    f.number < s'.store.count := by
  obtain ⟨hle, hnew⟩ := count_step h
  cases comes hs h hf with
  | kept hf => exact Nat.lt_of_lt_of_le (hs.numbered u f hf) hle
  | started he => rw [hnew _ _ _ he]; exact Nat.lt_succ_self _
  | answered hst =>
    have hlt := hs.numbered u _ (top_mem hst)
    exact Nat.lt_of_lt_of_le hlt hle

theorem started_step (hs : s.Sound tr) (h : Step s e s') (hf : f ∈ s'.store.stack u) :
    .start u f.number f.request ∈ tr ++ e.toList := by
  cases comes hs h hf with
  | kept hf => exact List.mem_append_left _ (hs.started u f hf)
  | started he => simp [he]
  | answered hst =>
    have hmem := hs.started u _ (top_mem hst)
    exact List.mem_append_left _ hmem

theorem follows_step (hs : s.Sound tr) (h : Step s e s') (hf : f ∈ s'.store.stack u) :
    ∃ d, f.rest.Follows d f.request (fun s _ => s.Rests) f.stage := by
  cases comes hs h hf with
  | kept hf => exact hs.follows u f hf
  | started => exact ⟨_, operation_follows _⟩
  | @answered n r past x next below hst =>
    obtain ⟨d, hd⟩ := hs.follows u _ (top_mem hst)
    refine ⟨d, ?_⟩
    rw [stage_snoc]
    exact hd.2 x.reply

@[simp] theorem threads_onCursors {store : System} {threads : Cursor.Threads} :
    (s.onCursors store threads).threads = threads := rfl

@[simp] theorem stack_onCursors {store : System} {threads : Cursor.Threads} :
    (s.onCursors store threads).store.stack = store.stack := rfl

theorem stack_other {s s' : System} {e : Event} (h : Store.Step s e s')
    (hu : e.thread? ≠ some u) : s'.stack u = s.stack u := by
  cases h with
  | disturb => rfl
  | _ => simp [System.setStack, show u ≠ _ from fun he => hu (congrArg some he.symm)]

/-- A thread does something that shows only outside of calls on the cache of cursors. -/
theorem idle_of_event {ev : Event} (h : Step s (some ev) s') (hu : ev.thread? = some u) :
    s'.threads.calls u = none := by
  cases h with
  | plain _ _ hidle => exact hidle u hu
  | answer _ _ _ h =>
    obtain rfl := Option.some.inj hu
    exact Cursor.Threads.idle_of_answered h
  | keep _ _ _ h =>
    obtain rfl := Option.some.inj hu
    cases h with | store hidle => exact hidle
  | release _ ht _ h =>
    obtain rfl := Option.some.inj hu
    cases h with | release hidle => exact ht ▸ hidle

theorem stack_kept (h : Step s e s') (hu : ∀ ev, e = some ev → ev.thread? ≠ some u) :
    s'.store.stack u = s.store.stack u := by
  cases h with
  | plain h => exact stack_other h (hu _ rfl)
  | begin => rfl
  | move => rfl
  | _ => simp [System.setStack, show u ≠ _ from fun he => hu _ rfl (congrArg some he.symm)]

theorem asking_step (hs : s.Sound tr) (h : Step s e s') {p : Cursor.Pending}
    (hp : s'.threads.calls u = some p) :
    ∃ f below, s'.store.stack u = f :: below ∧ f.asks p.request := by
  have hst : s'.store.stack u = s.store.stack u := by
    refine stack_kept h fun ev he hu => ?_
    subst he
    cases (idle_of_event h hu).symm.trans hp
  have hold : (∃ q, s.threads.calls u = some q ∧ q.request = p.request) →
      ∃ f below, s'.store.stack u = f :: below ∧ f.asks p.request := by
    rintro ⟨q, hq, hr⟩
    rw [hst, ← hr]
    exact hs.asking u q hq
  cases h with
  | plain => exact hold ⟨p, hp, rfl⟩
  | begin htop hc h =>
    rcases Cursor.Threads.request_step h hp with hq | he
    · exact hold hq
    · obtain ⟨rfl, rfl⟩ := Cursor.Event.begun.inj he
      exact ⟨_, _, htop, hc⟩
  | move h => exact hold ((Cursor.Threads.request_step h hp).resolve_right (by simp))
  | answer _ _ _ h => exact hold ((Cursor.Threads.request_step h hp).resolve_right (by simp))
  | keep _ _ _ h => exact hold ((Cursor.Threads.request_step h hp).resolve_right (by simp))
  | release _ _ _ h => exact hold ((Cursor.Threads.request_step h hp).resolve_right (by simp))

theorem threads_step (h : Step s e s') :
    s'.threads = s.threads ∨ ∃ ce, Cursor.Step s.threads ce s'.threads := by
  cases h with
  | plain => exact Or.inl rfl
  | begin _ _ h => exact Or.inr ⟨_, h⟩
  | move h => exact Or.inr ⟨_, h⟩
  | answer _ _ _ h => exact Or.inr ⟨_, h⟩
  | keep _ _ _ h => exact Or.inr ⟨_, h⟩
  | release _ _ _ h => exact Or.inr ⟨_, h⟩

theorem threads_sound_step (hs : s.threads.Sound) (h : Step s e s') : s'.threads.Sound := by
  rcases threads_step h with heq | ⟨ce, hce⟩
  · rwa [heq]
  · exact Cursor.Threads.sound_step hs hce

/-- A pass is given a lease. -/
theorem acquired {a : Lease} (h : Step s (some (.ask t n r ⟨.acquire k, a⟩)) s') :
    ∃ w ce, ce = .answered t (.acquire k) w (.leased a.slot a.cursor) ∧
      Cursor.Step s.threads ce s'.threads := by
  cases h with
  | plain _ hc => cases hc
  | @answer _ _ _ _ _ _ _ c p x _ _ _ hc ha h =>
    cases hc
    cases x with
    | leased i w =>
      cases ha
      exact ⟨p, _, rfl, h⟩
    | _ => cases ha

/-- A lease stays until its call releases it. -/
theorem grant_step (h : Step s e s') (hg : gr ∈ s.threads.grants) :
    gr ∈ s'.threads.grants ∨
      ∃ n r, e = some (.ask gr.thread n r ⟨.release gr.slot, ()⟩) := by
  cases h with
  | plain => exact Or.inl hg
  | begin _ _ h => exact Or.inl ((Cursor.Threads.grants_kept h hg).resolve_right (by simp))
  | move h => exact Or.inl ((Cursor.Threads.grants_kept h hg).resolve_right (by simp))
  | answer _ _ _ h => exact Or.inl ((Cursor.Threads.grants_kept h hg).resolve_right (by simp))
  | keep _ _ _ h => exact Or.inl ((Cursor.Threads.grants_kept h hg).resolve_right (by simp))
  | release _ ht hi h =>
    rcases Cursor.Threads.grants_kept h hg with hkept | he
    · exact Or.inl hkept
    · obtain rfl := Cursor.Event.released.inj he
      subst ht hi
      exact Or.inr ⟨_, _, rfl⟩

theorem asked_top (h : Step s (some (.ask t n r x)) s') :
    ∃ past next below, s.store.stack t = ⟨n, r, past, .perform x.effect next⟩ :: below := by
  cases h with
  | plain h => cases h with | ask hst => exact ⟨_, _, _, hst⟩
  | answer hst => exact ⟨_, _, _, hst⟩
  | keep hst => exact ⟨_, _, _, hst⟩
  | release hst => exact ⟨_, _, _, hst⟩

/-- A call that has a lease had it before, or is given it. -/
theorem lease_step (hs : s.Sound tr) (h : Step s e s') (hf : f ∈ s'.store.stack u)
    (hi : f.stage.lease = some i) :
    (∃ f₀ ∈ s.store.stack u, f₀.number = f.number ∧ f₀.request = f.request ∧
        f₀.stage.lease = some i ∧
        ∀ r, e ≠ some (.ask u f.number r ⟨.release i, ()⟩)) ∨
      ∃ k a, e = some (.ask u f.number f.request ⟨.acquire k, a⟩) ∧ a.slot = i ∧
        f.request.batches k := by
  cases comes hs h hf with
  | kept hmem hn => exact Or.inl ⟨f, hmem, rfl, rfl, hi, fun r he => hn _ r _ he rfl⟩
  | started => cases hi
  | @answered n r past x next below hst he =>
    rw [stage_snoc] at hi
    obtain ⟨d, hd⟩ := hs.follows u _ (top_mem hst)
    obtain ⟨eff, a⟩ := x
    rcases lease_next hi with hold | ⟨k, rfl⟩
    · refine Or.inl ⟨_, top_mem hst, rfl, rfl, hold, fun r' hr => ?_⟩
      have hx := (Event.ask.inj (Option.some.inj (he.symm.trans hr))).2.2.2
      cases hx
      cases hi
    · exact Or.inr ⟨k, a, he, Option.some.inj hi, hd.1.2.2.2⟩

theorem granted_step (hs : s.Sound tr) (h : Step s e s') (hf : f ∈ s'.store.stack u)
    (hi : f.stage.lease = some i) :
    ∃ g ∈ s'.threads.grants, g.thread = u ∧ g.slot = i ∧ f.request.batches g.key := by
  rcases lease_step hs h hf hi with ⟨f₀, hmem, hn, hr, hl, hne⟩ | ⟨k, a, rfl, rfl, hb⟩
  · obtain ⟨g, hg, rfl, rfl, hk⟩ := hs.granted u f₀ hmem i hl
    rcases grant_step h hg with hkept | ⟨n, r, rfl⟩
    · exact ⟨g, hkept, rfl, rfl, hr ▸ hk⟩
    · -- Whoever releases the slot has the lease on it.
      obtain ⟨past, next, below, hst⟩ := asked_top h
      obtain ⟨d, hd⟩ := hs.follows _ _ (top_mem hst)
      have hnum := hs.unshared _ _ f₀ hmem _ (top_mem hst) _ hl hd.1.2.1
      exact absurd (by rw [← hn, hnum]) (hne r)
  · obtain ⟨w, ce, rfl, hce⟩ := acquired h
    exact ⟨_, Cursor.Threads.given_of_answer hce, rfl, rfl, hb⟩

/-- A slot on which a lease is given is not leased. -/
theorem acquired_free (hs : s.Sound tr) {a : Lease}
    (h : Step s (some (.ask t n r ⟨.acquire k, a⟩)) s') (hg : g ∈ s.store.stack u) :
    g.stage.lease ≠ some a.slot := by
  intro hl
  obtain ⟨gr, hgr, -, hslot, -⟩ := hs.granted u g hg _ hl
  obtain ⟨w, ce, rfl, hce⟩ := acquired h
  have hsound := threads_sound_step hs.threads h
  rcases grant_step h hgr with hkept | ⟨_, _, he⟩
  · have heq := hsound.apart gr hkept _ (Cursor.Threads.given_of_answer hce) hslot
    have hlt := hs.threads.numbered gr hgr
    rw [heq] at hlt
    exact Nat.lt_irrefl _ hlt
  · simp at he

theorem unshared_step (hs : s.Sound tr) (h : Step s e s') (hf : f ∈ s'.store.stack t)
    (hg : g ∈ s'.store.stack u) (hi : f.stage.lease = some i) (hi' : g.stage.lease = some i) :
    f.number = g.number := by
  rcases lease_step hs h hf hi with ⟨f₀, hf₀, hn, -, hl, -⟩ | ⟨k, a, rfl, rfl, -⟩ <;>
    rcases lease_step hs h hg hi' with ⟨g₀, hg₀, hn', -, hl', -⟩ | ⟨k', a', he', ha', -⟩
  · rw [← hn, ← hn']
    exact hs.unshared t u f₀ hf₀ g₀ hg₀ i hl hl'
  · subst he' ha'
    exact absurd hl (acquired_free hs h hf₀)
  · exact absurd hl' (acquired_free hs h hg₀)
  · exact (Event.ask.inj (Option.some.inj he')).2.1

theorem deleted_mono (h : Deleted k t f tr) : Deleted k t f (tr ++ e.toList) := by
  obtain ⟨n, hn, hmem⟩ := h
  exact ⟨n, hn, List.mem_append_left _ hmem⟩

/-- A call that evicts is a deletion. -/
theorem deletion_of_asks (hs : s.Sound tr) (hst : s.store.stack t = f :: below)
    (hf : f.asks (.evict k)) : f.request = .unsubscribe k := by
  obtain ⟨d, hd⟩ := hs.follows t f (top_mem hst)
  obtain ⟨n, r, past, rest⟩ := f
  cases rest with
  | done => cases hf
  | perform e next =>
    cases e with
    | evict j =>
      obtain rfl : j = k := by simpa [Frame.asks, Effect.cursorCall] using hf
      exact hd.1.2
    | _ => simp [Frame.asks, Effect.cursorCall] at hf

theorem marked_step (hs : s.Sound tr) (h : Step s e s') (hf : f ∈ s'.store.stack t)
    (hi : f.stage.lease = some i) (hup : (s'.threads.cache.slot i).GivenUp) :
    ∃ k, f.request.batches k ∧ Deleted k t f (tr ++ e.toList) := by
  rcases lease_step hs h hf hi with ⟨f₀, hmem, hn, hr, hl, -⟩ | ⟨k, a, rfl, rfl, hb⟩
  · by_cases hold : (s.threads.cache.slot i).GivenUp
    · obtain ⟨k, hk, hdel⟩ := hs.marked t f₀ hmem i hl hold
      obtain ⟨m, hm, hstart⟩ := deleted_mono (e := e) hdel
      exact ⟨k, hr ▸ hk, m, hn ▸ hm, hstart⟩
    · rcases threads_step h with heq | ⟨ce, hce⟩
      · exact absurd (heq ▸ hup) hold
      · obtain ⟨v, k, hcall, hkey, hown⟩ :=
          Cursor.Threads.evicting_step hs.threads hce hold hup
        obtain ⟨gr, hgr, rfl, rfl, hk⟩ := hs.granted t f₀ hmem i hl
        obtain rfl := hown _ (hs.threads.held gr hgr)
        obtain rfl := Option.some.inj (hkey.symm.trans (hs.threads.keyed gr hgr))
        obtain ⟨top, below, hst, hasks⟩ := hs.asking _ _ hcall
        have hreq := deletion_of_asks hs hst hasks
        have hstart := hs.started _ top (top_mem hst)
        refine ⟨gr.key, hr ▸ hk, top.number, ?_, List.mem_append_left _ (hreq ▸ hstart)⟩
        have ho := hs.ordered gr.thread
        rw [hst, List.pairwise_cons] at ho
        rw [hst] at hmem
        rcases List.mem_cons.1 hmem with rfl | hb
        · simp [hreq, Request.batches] at hk
        · exact hn ▸ ho.1 f₀ hb
  · obtain ⟨w, ce, rfl, hce⟩ := acquired h
    exact absurd hup (Cursor.Threads.live_of_answer hs.threads hce)

theorem sound_step (hs : s.Sound tr) (h : Step s e s') : s'.Sound (tr ++ e.toList) where
  threads := threads_sound_step hs.threads h
  numbered _ _ hf := numbered_step hs h hf
  ordered _ := ordered_step hs h
  started _ _ hf := started_step hs h hf
  follows _ _ hf := follows_step hs h hf
  asking _ _ hp := asking_step hs h hp
  granted _ _ hf _ hi := granted_step hs h hf hi
  unshared _ _ _ hf _ hg _ hi hi' := unshared_step hs h hf hg hi hi'
  marked _ _ hf _ hi hup := marked_step hs h hf hi hup

theorem sound_opened {s : System} (h : s.Opened) : Sound [] ⟨s, {}⟩ where
  threads := Cursor.Threads.sound_empty
  numbered := by simp [h.stack]
  ordered := by simp [h.stack]
  started := by simp [h.stack]
  follows := by simp [h.stack]
  asking := by simp
  granted := by simp [h.stack]
  unshared := by simp [h.stack]
  marked := by simp [h.stack]

theorem sound_run {s₀ : System} (h : s₀.Opened) (hr : Run ⟨s₀, {}⟩ tr s) : s.Sound tr := by
  generalize hs₀ : (⟨s₀, {}⟩ : Concurrent) = c₀ at hr
  induction hr with
  | nil => exact hs₀ ▸ sound_opened h
  | snoc _ he ih => exact sound_step ih he

theorem run_trans {tr' : List Event} (h : Run s tr s') (h' : Run s' tr' s'') :
    Run s (tr ++ tr') s'' := by
  induction h' with
  | nil => simpa using h
  | snoc _ he ih => simpa [← List.append_assoc] using ih.snoc he

/-- No thread is in a call on the cache of cursors. -/
structure Calm (s : Concurrent) : Prop where
  calls : ∀ t, s.threads.calls t = none
  cache : s.store.host.cursors = s.threads.cache

/-- What stays when a thread takes steps inside a call on the cache of cursors. -/
structure Within (t : Thread) (s s' : Concurrent) : Prop where
  stack : s'.store.stack = s.store.stack
  count : s'.store.count = s.store.count
  host : s'.store.host = { s.store.host with cursors := s'.threads.cache }
  calls : ∀ u, u ≠ t → s'.threads.calls u = s.threads.calls u

/-- A thread takes all steps of its call but the last, while no other thread moves. -/
theorem advance_run {c : Cursor.Cache} {y : Cursor.Answer} {q p : Cursor.Call} (m : Nat)
    (hp : s.threads.calls t = some ⟨q, p⟩) (hs : s.store.host.cursors = s.threads.cache)
    (ha : s.threads.cache.advance t m p = .finished c y) :
    ∃ s' p', Run s [] s' ∧ s.Within t s' ∧ s'.threads.calls t = some ⟨q, p'⟩ ∧
      s'.threads.cache.step t p' = .finished c y := by
  induction m generalizing s p with
  | zero => cases ha
  | succ m ih =>
    unfold Cursor.Cache.advance at ha
    split at ha
    · rename_i c' p' hc
      obtain ⟨s₁, hmove, hw₁, hcall, hcache⟩ : ∃ s₁, Step s none s₁ ∧ s.Within t s₁ ∧
          s₁.threads.calls t = some ⟨q, p'⟩ ∧ s₁.threads.cache = c' :=
        ⟨_, .move (.move hp hc),
          ⟨rfl, rfl, rfl, fun u hu => by simp [Cursor.Threads.setCall, hu]⟩,
          by simp [Cursor.Threads.setCall], rfl⟩
      obtain ⟨s', p'', hr, hw, hcall', hlast⟩ := ih hcall (by rw [hw₁.host]) (hcache ▸ ha)
      refine ⟨s', p'', run_trans ((Run.nil s).snoc hmove) hr, ?_, hcall', hlast⟩
      exact ⟨hw.stack.trans hw₁.stack, hw.count.trans hw₁.count, by rw [hw.host, hw₁.host],
        fun u hu => (hw.calls u hu).trans (hw₁.calls u hu)⟩
    · rename_i hc
      obtain ⟨rfl, rfl⟩ := Cursor.Progress.finished.inj ha
      exact ⟨s, p, .nil s, ⟨rfl, rfl, by rw [← hs], fun _ _ => rfl⟩, hp, hc⟩
    · cases ha

theorem isRequest_of_cursorCall {e : Effect} {c : Cursor.Call} (h : e.cursorCall = some c) :
    c.isRequest := by
  cases e <;> cases h <;> rfl

/-- A call on the cache of cursors may be made while no other thread moves. -/
theorem cursorCall_run {e : Effect} {next : e.Reply → Operation (Except Failure r.Result)}
    {c : Cursor.Call} {y : Cursor.Answer} {cursors : Cursor.Cache} {a : e.Reply} (hs : s.Calm)
    (hst : s.store.stack t = ⟨n, r, past, .perform e next⟩ :: below)
    (hc : e.cursorCall = some c) (ha : e.replyOf y = some a)
    (hcall : s.store.host.cursors.call t c = some (y, cursors)) :
    ∃ s', Run s [.ask t n r ⟨e, a⟩] s' ∧ s'.Calm ∧
      s'.store = { s.store.setStack t (⟨n, r, past ++ [⟨e, a⟩], next a⟩ :: below) with
        host := { s.store.host with cursors } } := by
  have hbegin : Step s none { s with threads := s.threads.setCall t (some ⟨c, c⟩) } :=
    .begin hst hc (.begin (hs.calls t) (isRequest_of_cursorCall hc))
  have hfin : s.threads.cache.advance t Cursor.Cache.stepsAlone c = .finished cursors y := by
    rw [hs.cache] at hcall
    unfold Cursor.Cache.call at hcall
    split at hcall
    · rename_i hadv
      cases hcall
      exact hadv
    · cases hcall
  obtain ⟨s', p, hr, hw, hp, hlast⟩ := advance_run Cursor.Cache.stepsAlone
    (s := { s with threads := s.threads.setCall t (some ⟨c, c⟩) }) (q := c) (p := c)
    (by simp [Cursor.Threads.setCall]) hs.cache hfin
  have hanswer := Step.answer (hw.stack ▸ hst) hc ha (.answer hp hlast)
  refine ⟨_, run_trans ((Run.nil s).snoc hbegin) (run_trans hr ((Run.nil s').snoc hanswer)), ?_, ?_⟩
  · refine ⟨fun u => ?_, rfl⟩
    by_cases hu : u = t
    · simp [Cursor.Threads.setCall, hu]
    · simpa [Cursor.Threads.setCall, hu] using (hw.calls u hu).trans (by
        simpa [Cursor.Threads.setCall, hu] using hs.calls u)
  · simp [onCursors, System.setStack, hw.stack, hw.count, hw.host]

theorem replies_cursors {h h' : Host} {e : Effect} {a : e.Reply} (hr : Replies t h e a h')
    (he : e.usesCursors = false) : h'.cursors = h.cursors := by
  cases hr with
  | host _ _ ha =>
    cases e with
    | acquire | reset | evict | peek | keep | release => cases he
    | _ =>
      cases ha
      rfl
  | _ => rfl

/-- A request to the cache of cursors, or through a lease, is answered while no other thread
moves. -/
theorem host_run {e : Effect} {next : e.Reply → Operation (Except Failure r.Result)} {a : e.Reply}
    {host : Host} (hs : s.Sound tr) (hc : s.Calm)
    (hst : s.store.stack t = ⟨n, r, past, .perform e next⟩ :: below) (he : e.usesCursors)
    (ha : s.store.host.answer t e = some (a, host)) :
    ∃ s', Run s [.ask t n r ⟨e, a⟩] s' ∧ s'.Calm ∧
      s'.store = { s.store.setStack t (⟨n, r, past ++ [⟨e, a⟩], next a⟩ :: below) with host } := by
  obtain ⟨d, hd⟩ := hs.follows t _ (top_mem hst)
  cases e with
  | acquire k =>
    simp only [Host.answer, Host.onCursors] at ha
    cases hq : s.store.host.cursors.call t (.acquire k) with
    | none => simp [hq] at ha
    | some q =>
      obtain ⟨⟨i, w⟩ | _ | _, c⟩ := q <;> simp [hq] at ha
      obtain ⟨rfl, rfl⟩ := ha
      exact cursorCall_run hc hst rfl rfl hq
  | reset k =>
    simp only [Host.answer, Host.onCursors, Option.map_map, Option.map_eq_some_iff] at ha
    obtain ⟨q, hq, heq⟩ := ha
    cases heq
    exact cursorCall_run hc hst rfl rfl hq
  | evict k =>
    simp only [Host.answer, Host.onCursors, Option.map_map, Option.map_eq_some_iff] at ha
    obtain ⟨q, hq, heq⟩ := ha
    cases heq
    exact cursorCall_run hc hst rfl rfl hq
  | peek k =>
    simp only [Host.answer, Host.onCursors, Option.map_map, Option.map_eq_some_iff] at ha
    obtain ⟨⟨y, c⟩, hq, heq⟩ := ha
    cases heq
    exact cursorCall_run hc hst rfl (by cases y <;> rfl) hq
  | keep i w =>
    obtain ⟨g, hg, ht, hi, -⟩ := hs.granted t _ (top_mem hst) i hd.1.2.1
    cases ha
    have hkeep := Step.keep hst ht hi (.store (hc.calls t) hg)
    refine ⟨_, (Run.nil s).snoc hkeep, ⟨hc.calls, rfl⟩, ?_⟩
    simp [onCursors, hc.cache, hi]
  | release i =>
    obtain ⟨g, hg, ht, hi, -⟩ := hs.granted t _ (top_mem hst) i hd.1.2.1
    cases ha
    have hrelease := Step.release hst ht hi (.release (hc.calls _) hg)
    refine ⟨_, (Run.nil s).snoc hrelease, ⟨hc.calls, rfl⟩, ?_⟩
    simp [onCursors, hc.cache, hi]
  | _ => cases he

/-- What happens when calls on the cache of cursors are not interrupted may happen. -/
theorem step_atomic {e : Event} {store : System} (hs : s.Sound tr) (hc : s.Calm)
    (h : Store.Step s.store e store) : ∃ s', Run s [e] s' ∧ s'.Calm ∧ s'.store = store := by
  have plain : e.usesCursors = false → store.host.cursors = s.store.host.cursors →
      ∃ s', Run s [e] s' ∧ s'.Calm ∧ s'.store = store := fun he hcur =>
    ⟨_, (Run.nil s).snoc (.plain h he fun t _ => hc.calls t), ⟨hc.calls, hcur.trans hc.cache⟩, rfl⟩
  cases h with
  | start => exact plain rfl rfl
  | finish => exact plain rfl rfl
  | disturb => exact plain rfl rfl
  | @ask t n r past e next below a host hst hr =>
    cases he : e.usesCursors with
    | false => exact plain he (replies_cursors hr he)
    | true =>
      cases hr with
      | host _ _ ha => exact host_run hs hc hst he ha
      | _ => cases he

theorem run_atomic {s₀ s : System} (h : s₀.Opened) (hr : Store.Run Store.Step s₀ tr s) :
    ∃ s', Run ⟨s₀, {}⟩ tr s' ∧ s'.Calm ∧ s'.store = s := by
  induction hr with
  | nil => exact ⟨_, .nil _, ⟨fun _ => rfl, h.cursors⟩, rfl⟩
  | snoc _ he ih =>
    obtain ⟨s₁, hr₁, hc₁, rfl⟩ := ih
    obtain ⟨s', hr', hc', hs'⟩ := step_atomic (sound_run h hr₁) hc₁ he
    exact ⟨s', run_trans hr₁ hr', hc', hs'⟩

end Concurrent
end DurableTopic.Store

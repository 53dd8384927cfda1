import DurableTopic.Proofs.Isolation
import DurableTopic.Proofs.Passes
import DurableTopic.Proofs.Places
/-! What is asked of a cursor while a pass holds it. A reset or a deletion is pending until the pass gives
its lease back, and what the pass keeps in the meantime stays in its slot. -/
namespace DurableTopic.Store

open Cursor (Thread Cache)

/-- What is asked for to give up the cursor of a subscriber. -/
def Exchange.givesUp (k : SubscriberKey) : Exchange → Bool
  | ⟨.reset j, _⟩ | ⟨.evict j, _⟩ => j = k
  | _ => false

/-- Whether the cursor of a subscriber was given up. -/
def givenUp (k : SubscriberKey) (tr : List Event) : Bool := tr.any (·.givesUp k)

section

variable {k : SubscriberKey} {x : Exchange} {tr : List Event} {ev : Event}

theorem givenUp_snoc : givenUp k (tr ++ [ev]) = (givenUp k tr || ev.givesUp k) := by
  simp [givenUp]

theorem givenUp_kept (h : ev.givesUp k = false) : givenUp k (tr ++ [ev]) = givenUp k tr := by
  rw [givenUp_snoc, h, Bool.or_false]

theorem givesUp_ask {t : Thread} {n : Nat} {r : Request} :
    (Event.ask t n r x).givesUp k = x.givesUp k := by
  obtain ⟨e, a⟩ := x
  cases e <;> rfl

end

/-- The cursor of a subscriber during a pass, which found it somewhere and may have given it up. Before
the lease and behind it the cursor stands somewhere, and in between the slot is the subscriber's, unless
it was given up. -/
structure Slotted (k : SubscriberKey) (o : Option Watermark) (up : Bool) (f : Frame) (c : Cache) :
    Prop where
  found : ∀ l ∈ (minutes f.past).leases, l.cursor = o
  early : (minutes f.past).leases = [] →
    f.stage.lease = none ∧ (minutes f.past).kept = [] ∧ up = false
  cursor : (minutes f.past).leases ≠ [] → f.stage.cursor = (minutes f.past).kept.getLast?.or o
  held : ∀ i, f.stage.lease = some i → if up then ∀ j, ¬ Live k c j else Live k c i
  free : f.stage.lease = none →
    c.Stands k (if up then none else (minutes f.past).kept.getLast?.or o)

section

variable {k : SubscriberKey} {o w : Option Watermark} {up : Bool} {t : Thread} {s : System} {n : Nat}
  {r : Request} {past : List Exchange} {e : Effect} {a : e.Reply} {h' : Host} {c c' : Cache}
  {next : e.Reply → Operation (Except Failure r.Result)} {below : List Frame} {f : Frame}

theorem stands_same (h : c.Stands k w) (hc : c'.Sound) (hs : SameSlot k c c') : c'.Stands k w := by
  refine ⟨hc, fun i hi => ?_, ?_⟩
  · have hi' := hs.mapped ▸ hi
    rw [hs.slot i hi']
    exact h.free i hi'
  · rw [← h.shown, Cache.shown, Cache.shown, hs.mapped]
    cases hm : c.mapped.find? k with
    | none => rfl
    | some i => simp [hs.slot i hm]

theorem shows_of_stands (h : c.Stands k w) : c.Shows k w := by
  rw [← h.shown, Cache.shown_of_free h.sound h.free]
  exact Cache.shows_of_free h.free

/-- What does not touch the slot of a subscriber leaves it to the pass. -/
theorem slotted_same (h : Slotted k o up f c) (hc : c'.Sound) (hs : SameSlot k c c') :
    Slotted k o up f c' where
  found := h.found
  early := h.early
  cursor := h.cursor
  held i hi := by
    have hold := h.held i hi
    split
    · rw [if_pos ‹_›] at hold
      exact fun j hj => hold j ((live_same hs).1 hj)
    · rw [if_neg ‹_›] at hold
      exact (live_same hs).2 hold
  free hi := stands_same (h.free hi) hc hs

/-- A pass is answered something that has nothing to do with cursors. -/
theorem slotted_next (h : Slotted k o up (Frame.mk n r past (.perform e next)) c)
    (hacq : ∀ j, e ≠ .acquire j) (hkeep : ∀ i w, e ≠ .keep i w) (hrel : ∀ i, e ≠ .release i) :
    Slotted k o up (Frame.mk n r (past ++ [⟨e, a⟩]) (next a)) c := by
  have hl : (minutes (past ++ [⟨e, a⟩])).leases = (minutes past).leases := by
    rw [minutes_snoc, Minutes.next_leases hacq]
  have hk : (minutes (past ++ [⟨e, a⟩])).kept = (minutes past).kept := by
    rw [minutes_snoc, Minutes.next_kept hkeep]
  have hlease : (Frame.mk n r (past ++ [⟨e, a⟩]) (next a)).stage.lease =
      (Frame.mk n r past (.perform e next)).stage.lease := by
    rw [stage_snoc, Stage.next_lease hacq hrel]
    rfl
  have hcursor : (Frame.mk n r (past ++ [⟨e, a⟩]) (next a)).stage.cursor =
      (Frame.mk n r past (.perform e next)).stage.cursor := by
    rw [stage_snoc, Stage.next_cursor hacq hkeep]
    rfl
  constructor
  case found => exact hl ▸ h.found
  case early =>
    rw [hlease, hl, hk]
    exact h.early
  case cursor =>
    rw [hcursor, hl, hk]
    exact h.cursor
  case held => exact hlease ▸ h.held
  case free =>
    rw [hlease, hk]
    exact h.free

/-- A lease is given on the subscriber's slot, with what was found there. -/
theorem slotted_acquire {l : Lease} {next : Lease → Operation (Except Failure r.Result)}
    (h : Slotted k o up (Frame.mk n r past (.perform (.acquire k) next)) c)
    (hl : (minutes past).leases = [] ∧ (minutes past).kept = [])
    (hc : c.call t (.acquire k) = some (.leased l.slot l.cursor, c')) :
    Slotted k o up (Frame.mk n r (past ++ [⟨.acquire k, l⟩]) (next l)) c' := by
  obtain ⟨hnone, -, rfl⟩ := h.early hl.1
  have hstands := h.free hnone
  simp only [Bool.false_eq_true, if_false, hl.2, List.getLast?_nil, Option.none_or] at hstands
  obtain ⟨i, c'', hcall, hleased⟩ := Cache.acquire_stands (t := t) hstands
  rw [hc] at hcall
  obtain ⟨⟨rfl, hcursor⟩, rfl⟩ : (l.slot = i ∧ l.cursor = o) ∧ c' = c'' := by
    simpa using hcall
  have hm : minutes (past ++ [⟨.acquire k, l⟩]) =
      { minutes past with leases := (minutes past).leases ++ [l] } := minutes_snoc
  constructor
  case found =>
    intro l' hl'
    rw [hm] at hl'
    rcases List.mem_append.1 hl' with hl' | hl'
    · exact h.found l' hl'
    · rw [List.mem_singleton.1 hl', hcursor]
  case early =>
    rw [hm]
    simp
  case cursor =>
    intro _
    rw [stage_snoc, hm]
    simp [Stage.next, hl.2, hcursor]
  case held =>
    intro j hj
    rw [stage_snoc] at hj
    obtain rfl : l.slot = j := Option.some.inj hj
    exact ⟨hleased.mapped, hleased.unasked⟩
  case free =>
    intro hj
    rw [stage_snoc] at hj
    cases hj

/-- What is kept is kept in the slot of the pass. -/
theorem slotted_keep {i : Nat} {w : Watermark} {next : Unit → Operation (Except Failure r.Result)}
    (h : Slotted k o up (Frame.mk n r past (.perform (.keep i w) next)) c)
    (hi : (Frame.mk n r past (.perform (.keep i w) next)).stage.lease = some i)
    (hin : i < c.slots.length) :
    Slotted k o up (Frame.mk n r (past ++ [⟨.keep i w, ()⟩]) (next ())) (c.keep i w) := by
  have hm : minutes (past ++ [⟨.keep i w, ()⟩]) =
      { minutes past with kept := (minutes past).kept ++ [w] } := minutes_snoc
  have hlive : ∀ j, Live k (c.keep i w) j ↔ Live k c j := by
    intro j
    have hslot : (Cache.slot (c.keep i w) j).pendingReset = (c.slot j).pendingReset := by
      rw [Cache.keep, Cache.slot_setSlot hin]
      split
      · rename_i hj
        rw [hj]
      · rfl
    exact ⟨fun hl => ⟨hl.mapped, hslot ▸ hl.kept⟩, fun hl => ⟨hl.mapped, hslot.trans hl.kept⟩⟩
  have hlease : (Frame.mk n r (past ++ [⟨.keep i w, ()⟩]) (next ())).stage.lease = some i := by
    rw [stage_snoc]
    exact hi
  constructor
  case found =>
    rw [hm]
    exact h.found
  case early =>
    intro hl
    rw [hm] at hl
    exact absurd ((h.early hl).1.symm.trans hi) (by simp)
  case cursor =>
    intro _
    rw [stage_snoc, hm]
    simp [Stage.next]
  case held =>
    intro j hj
    simp only [hlive]
    exact h.held j (hi.trans (hlease.symm.trans hj))
  case free =>
    intro hj
    cases hlease.symm.trans hj

/-- A cursor that was given up while it was held is nowhere once its slot is given back. -/
theorem stands_givenUp {i : Nat} (hc : c.Sound) (hin : i < c.slots.length)
    (hlive : ∀ j, ¬ Live k c j)
    (hother : ∀ j u, c.mapped.find? k = some j → (c.slot j).holder = some u → j = i) :
    (c.release i).Stands k none := by
  have hmap : (c.release i).mapped = c.mapped := rfl
  have hslot : (c.release i).slot i = (c.slot i).released := by
    rw [Cache.release, Cache.slot_setSlot hin, if_pos rfl]
  -- A slot that is still the subscriber's was to be reset, so it is the one that is given back.
  have hown : ∀ j, c.mapped.find? k = some j → j = i ∧ (c.slot i).pendingReset := by
    intro j hj
    have hreset : (c.slot j).pendingReset = true := by
      cases hr : (c.slot j).pendingReset with
      | true => rfl
      | false => exact absurd ⟨hj, hr⟩ (hlive j)
    cases hh : (c.slot j).holder with
    | none => exact absurd (hc.quiet j hh).1 (by simp [hreset])
    | some u =>
      obtain rfl := hother j u hj hh
      exact ⟨rfl, hreset⟩
  refine ⟨Cache.sound_release hc hin, fun j hj => ?_, ?_⟩
  · obtain ⟨rfl, -⟩ := hown j hj
    rw [hslot]
    rfl
  · rw [Cache.shown, hmap]
    cases hj : c.mapped.find? k with
    | none => rfl
    | some j =>
      obtain ⟨rfl, hreset⟩ := hown j hj
      simp [hslot, Cursor.Slot.released, Cursor.Slot.shownToHolder, hreset]

/-- When the lease is given back, what was asked of the slot meanwhile takes effect. -/
theorem slotted_release {i : Nat} {next : Unit → Operation (Except Failure r.Result)}
    (h : Slotted k o up (Frame.mk n r past (.perform (.release i) next)) c) (hc : c.Sound)
    (hf : (Frame.mk n r past (.perform (.release i) next)).stage.lease = some i)
    (hheld : (c.slot i).holder = some t)
    (hwater : (c.slot i).watermark =
      (Frame.mk n r past (.perform (.release i) next)).stage.cursor)
    (hother : ∀ j u, c.mapped.find? k = some j → (c.slot j).holder = some u → j = i) :
    Slotted k o up (Frame.mk n r (past ++ [⟨.release i, ()⟩]) (next ())) (c.release i) := by
  have hin := Cache.held_inside hheld
  have hleases : (minutes past).leases ≠ [] := fun hl =>
    absurd ((h.early hl).1.symm.trans hf) (by simp)
  have hm : minutes (past ++ [⟨.release i, ()⟩]) = minutes past := minutes_snoc
  constructor
  case found =>
    rw [hm]
    exact h.found
  case early =>
    intro hl
    rw [hm] at hl
    exact absurd hl hleases
  case cursor =>
    intro _
    rw [stage_snoc, hm]
    exact h.cursor hleases
  case held =>
    intro j hj
    rw [stage_snoc] at hj
    cases hj
  case free =>
    intro _
    rw [hm]
    have hlive := h.held i hf
    cases up with
    | false =>
      have hleased : c.Leased t k i ((minutes past).kept.getLast?.or o) :=
        ⟨hc, hlive.mapped, hheld, hwater.trans (h.cursor hleases), hlive.kept⟩
      exact Cache.stands_release hleased
    | true => exact stands_givenUp hc hin hlive hother

/-- The cursor of the subscriber after its pass was answered. -/
theorem slotted_own (hs : s.Sound) (hst : s.stack t = ⟨n, r, past, .perform e next⟩ :: below)
    (hr : Replies t s.host e a h') (hb : r.batches k) (ho : Orderly past e)
    (hone : ∀ u, ∀ g ∈ s.stack u, g.request.batches k → g = ⟨n, r, past, .perform e next⟩)
    (h : Slotted k o up (Frame.mk n r past (.perform e next)) s.host.cursors) :
    Slotted k o up (Frame.mk n r (past ++ [⟨e, a⟩]) (next a)) h'.cursors := by
  have hf := hs.frames t _ (mem_top hst)
  have hg := (ask_granted hs hst hr).2.2.2
  have hc' : h'.cursors.Sound := (sound_ask hs hst hr).cursors
  have hperm := hf.follows.1
  have hrest : h'.cursors = s.host.cursors → (∀ j, e ≠ .acquire j) → (∀ i w, e ≠ .keep i w) →
      (∀ i, e ≠ .release i) → Slotted k o up (Frame.mk n r (past ++ [⟨e, a⟩]) (next a)) h'.cursors := by
    intro heq hacq hkeep hrel
    exact slotted_same (slotted_next h hacq hkeep hrel) hc' (sameSlot_of_eq heq)
  cases e with
  | acquire j =>
    obtain rfl := Request.batches_unique hb hperm.2.2.2
    exact slotted_acquire h ho hg.2
  | keep i w =>
    rw [hg.2]
    exact slotted_keep h hperm.2.1 (Cache.held_inside (hf.leased i hperm.2.1).1)
  | release i =>
    rw [hg.2]
    obtain ⟨hheld, hwater, -⟩ := hf.leased i hperm.2.1
    refine slotted_release h hs.cursors hperm.2.1 hheld hwater fun j u hj hu => ?_
    -- Who holds the subscriber's slot is a pass of the subscriber.
    obtain ⟨g, hgm, hgl⟩ := hs.held u j hu
    obtain ⟨-, -, m, hbm, hm⟩ := (hs.frames u g hgm).leased j hgl
    obtain rfl := hone u g hgm (hm k hj ▸ hbm)
    exact Option.some.inj (hgl.symm.trans hperm.2.1)
  | reset j =>
    rw [show r = .resetBatching j from hperm.2] at hb
    cases hb
  | evict j =>
    rw [show r = .unsubscribe j from hperm.2] at hb
    cases hb
  | begin | call | commit | close => exact hrest hg.1 (by simp) (by simp) (by simp)
  | peek j => exact hrest hg.2.1 (by simp) (by simp) (by simp)
  | _ => exact hrest hg.2 (by simp) (by simp) (by simp)

/-- A pass that waits for its listener has its slot. -/
theorem leased_of_atListener (hf : f.Sound t s.host) (hb : f.request.batches k) (hl : f.atListener) :
    ∃ i, f.stage.lease = some i :=
  Option.isSome_iff_exists.1 ((listens_of_atListener hf hl).ready k hb).1

/-- The cursor of the subscriber after a call of the listener was answered. -/
theorem slotted_other (hs : s.Sound) (hst : s.stack t = ⟨n, r, past, .perform e next⟩ :: below)
    (hr : Replies t s.host e a h') (hb : r.batches k = false) (hf : f ∈ below)
    (hfb : f.request.batches k) (h : Slotted k o up f s.host.cursors) :
    Slotted k o (up || (Exchange.mk e a).givesUp k) f h'.cursors := by
  have hc' : h'.cursors.Sound := (sound_ask hs hst hr).cursors
  have hfs := hs.frames t f (by rw [hst]; exact List.mem_cons_of_mem _ hf)
  obtain ⟨i, hi⟩ := leased_of_atListener hfs hfb (hs.waits t _ _ hst f hf)
  cases he : (Exchange.mk e a).givesUp k with
  | false =>
    rw [Bool.or_false]
    refine slotted_same h hc' ?_
    cases moves_of_ask (k := k) hs hst (ask_granted hs hst hr).2.2.2 with
    | aside _ hslot => exact hslot
    | reset => simp [Exchange.givesUp] at he
    | evict => simp [Exchange.givesUp] at he
    | _ => exact absurd hb (by simp_all)
  | true =>
    rw [Bool.or_true]
    have hheld : ∀ j, s.host.cursors.mapped.find? k = some j →
        (s.host.cursors.slot j).holder ≠ none := by
      intro j hj hnone
      have hlive := h.held i hi
      split at hlive
      · exact hlive j ⟨hj, (hs.cursors.quiet j hnone).1⟩
      · obtain rfl := Option.some.inj (hj.symm.trans hlive.mapped)
        exact absurd (hnone.symm.trans (hfs.leased j hi).1) (by simp)
    constructor
    case found => exact h.found
    case early => exact fun hl => absurd ((h.early hl).1.symm.trans hi) (by simp)
    case cursor => exact h.cursor
    case held => exact fun _ _ => not_live_of_givesUp hs hst hr (givesUp_ask.trans he) hheld
    case free => exact fun hl => absurd (hl.symm.trans hi) (by simp)

end

end DurableTopic.Store

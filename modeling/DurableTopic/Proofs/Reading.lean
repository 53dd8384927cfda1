import DurableTopic.Proofs.Places
/-! A pass reads under its lease and before it asks its listener for anything, so that nothing can
happen to its slot before it has read. -/
namespace DurableTopic.Store

open Cursor (Thread Cache)

/-- Whether rows are read above a position. -/
def Effect.scans : Effect → Bool
  | .call (.scanAfter ..) => true
  | _ => false

/-- Whether there is a lease through which no listener was asked for anything yet, after a request
is answered. -/
def Effect.unheard (b : Bool) : Effect → Bool
  | .acquire _ => true
  | .release _ | .hasCapacity | .offer _ => false
  | _ => b

/-- An operation reads only while there is a lease through which no listener was asked, and where it
ends a condition holds. -/
def Operation.Reads {α : Type} (Q : Bool → Prop) : Operation α → Bool → Prop
  | .done _, b => Q b
  | .perform e next, b => (e.scans → b) ∧ ∀ a, (next a).Reads Q (e.unheard b)

/-- The same for an operation that may fail. -/
def Op.Reads {α : Type} (Q : Bool → Prop) (x : Op α) (b : Bool) : Prop :=
  Operation.Reads Q x.run b

section

variable {α β : Type} {Q Q' : Bool → Prop} {b : Bool}

/-- A request that reads no rows. -/
theorem Operation.reads_quiet {e : Effect} {next : e.Reply → Operation α} (he : e.scans = false)
    (h : ∀ a, (next a).Reads Q (e.unheard b)) : (Operation.perform e next).Reads Q b :=
  ⟨fun hs => by simp [he] at hs, h⟩

theorem Operation.reads_mono {x : Operation α} (hq : ∀ b, Q b → Q' b) (h : x.Reads Q b) :
    x.Reads Q' b := by
  induction x generalizing b with
  | done a => exact hq _ h
  | perform e next ih => exact ⟨h.1, fun a => ih a (h.2 a)⟩

theorem Operation.reads_bind {x : Operation α} {f : α → Operation β}
    (h : x.Reads (fun b => ∀ a, (f a).Reads Q b) b) : (x.bind f).Reads Q b := by
  induction x generalizing b with
  | done a => exact h a
  | perform e next ih => exact ⟨h.1, fun a => ih a (h.2 a)⟩

namespace Op

variable {x : Op α}

theorem reads_mono (hq : ∀ b, Q b → Q' b) (h : x.Reads Q b) : x.Reads Q' b :=
  Operation.reads_mono hq h

theorem reads_bind {f : α → Op β} (h : x.Reads (fun b => Q b ∧ ∀ a, (f a).Reads Q b) b) :
    (x >>= f).Reads Q b := by
  refine Operation.reads_bind (Operation.reads_mono (fun b hb a => ?_) h)
  cases a with
  | error f => exact hb.1
  | ok a => exact hb.2 a

theorem reads_ofExcept {a : Except Failure α} (h : Q b) : (ofExcept a).Reads Q b := by
  cases a <;> exact h

theorem reads_attempt (h : x.Reads Q b) : (attempt x).Reads Q b :=
  Operation.reads_bind (Operation.reads_mono (fun _ hb _ => hb) h)

theorem reads_inContext {context : String} (h : x.Reads Q b) : (inContext context x).Reads Q b :=
  Operation.reads_bind (Operation.reads_mono (fun _ hb _ => hb) h)

/-- A transaction whose body asks no listener and reads no rows. -/
theorem reads_inTransaction (h : x.Reads (· = b) b) : (inTransaction x).Reads (· = b) b := by
  have hclose : ∀ r : Except Failure α,
      (do Op.ask .close; Op.ofExcept r : Op α).Reads (· = b) b :=
    fun r => Operation.reads_quiet rfl fun _ => reads_ofExcept rfl
  have hcommit : (do let a ← x; Op.commit; pure a : Op α).Reads (· = b) b := by
    refine reads_bind (reads_mono ?_ h)
    rintro b rfl
    refine ⟨rfl, fun a => Operation.reads_quiet rfl ?_⟩
    rintro (f | _) <;> rfl
  refine Operation.reads_quiet rfl ?_
  rintro (f | _)
  · rfl
  refine reads_bind (reads_attempt (reads_mono ?_ hcommit))
  rintro b rfl
  exact ⟨rfl, hclose⟩

end Op
end

section

variable {d : String} {k : SubscriberKey} {limit : Nat} {mode : Mode} {b : Bool}

open Op
open Operation (reads_quiet)

theorem reads_startOf {lease : Lease} : (startOf d k lease).Reads (· = b) b := by
  unfold startOf
  split
  · rfl
  · have hload : (Op.load d k).Reads (· = b) b := reads_quiet rfl fun _ => rfl
    refine reads_bind (reads_mono ?_ (reads_inContext (reads_inTransaction hload)))
    rintro b rfl
    exact ⟨rfl, fun w => reads_quiet rfl fun _ => rfl⟩

theorem reads_readRows {w : Watermark} : (readRows d k w limit).Reads (· = true) true := by
  refine reads_bind (reads_attempt (reads_quiet rfl fun _ => ⟨rfl, ?_⟩))
  rintro (f | _)
  · rfl
  refine ⟨fun _ => rfl, fun scan => ?_⟩
  have hcommit : (do
      require (← Op.ofExcept scan.outcome) ("scan after " ++ toString w.sequence)
      Op.commit : Op Unit).Reads (· = true) true := by
    refine reads_bind (reads_ofExcept ⟨rfl, fun status => ?_⟩)
    exact reads_bind (reads_ofExcept ⟨rfl, fun _ => reads_quiet rfl fun _ => rfl⟩)
  refine reads_bind (reads_attempt (reads_mono ?_ hcommit))
  rintro b rfl
  exact ⟨rfl, fun r => reads_quiet rfl fun _ => rfl⟩

theorem reads_deliver {row : Row} : (deliver mode row).Reads (fun _ => True) b := by
  unfold deliver
  split
  · exact reads_bind (reads_ofExcept ⟨trivial, fun _ => reads_quiet rfl fun _ => trivial⟩)
  · exact reads_bind (reads_ofExcept ⟨trivial, fun _ => reads_quiet rfl fun _ => trivial⟩)

theorem reads_offerRows {rows : List Row} {p : Progress} :
    (offerRows mode p rows).Reads (fun _ => True) b := by
  induction rows generalizing p b with
  | nil => trivial
  | cons row rows ih =>
    unfold offerRows
    split
    · exact ih
    · have hoffer : (do if ← Op.hasCapacity then deliver mode row else pure false : Op Bool).Reads
          (fun _ => True) b := by
        refine reads_bind (reads_quiet rfl fun _ => ⟨trivial, ?_⟩)
        rintro (_ | _)
        · trivial
        · exact reads_deliver
      refine reads_bind (reads_attempt (reads_mono ?_ hoffer))
      rintro b -
      refine ⟨trivial, ?_⟩
      rintro (f | _ | _)
      · trivial
      · trivial
      · exact ih

theorem reads_settle {slot : Nat} {p : Progress} :
    (settle d slot p).Reads (fun _ => True) b := by
  unfold settle
  split
  · exact reads_quiet rfl fun _ => reads_quiet rfl fun _ => trivial
  · trivial

theorem reads_offerAndKeep {span : Telemetry.Span} {slot : Nat} {above : Watermark}
    {rows : List Row} : (offerAndKeep d mode span slot above rows).Reads (fun _ => True) b := by
  refine reads_bind (reads_mono ?_ reads_offerRows)
  rintro b -
  refine ⟨trivial, fun p => reads_bind (reads_mono ?_ reads_settle)⟩
  rintro b -
  refine ⟨trivial, fun _ => ?_⟩
  split
  · trivial
  · exact reads_quiet rfl fun _ => trivial

theorem reads_pass {span : Telemetry.Span} {lease : Lease} :
    (pass d k limit mode span lease).Reads (fun _ => True) true := by
  refine reads_bind (reads_mono ?_ reads_startOf)
  rintro b rfl
  refine ⟨trivial, fun above => reads_quiet rfl fun _ => reads_bind (reads_mono ?_ reads_readRows)⟩
  rintro b rfl
  refine ⟨trivial, fun (rows, read) => ?_⟩
  cases read with
  | ok _ => exact reads_offerAndKeep
  | error f =>
    exact reads_quiet rfl fun _ => reads_quiet rfl fun _ => reads_quiet rfl fun _ =>
      reads_offerAndKeep

theorem recoverNext_reads : (recoverNext d k limit mode).Reads (fun _ => True) false := by
  have hvalid : (validate k).Reads (· = false) false := by
    unfold validate
    split <;> rfl
  refine reads_bind (reads_mono ?_ hvalid)
  rintro b rfl
  refine ⟨trivial, fun _ => reads_quiet rfl fun span => reads_quiet rfl fun lease => ?_⟩
  refine reads_bind (reads_attempt (reads_mono ?_ reads_pass))
  rintro b -
  exact ⟨trivial, fun r => reads_quiet rfl fun _ => reads_quiet rfl fun _ => reads_ofExcept trivial⟩

end

/-- Whether a call has a lease through which no listener was asked yet. -/
def Frame.unheard (f : Frame) : Bool := f.past.foldl (fun b x => x.effect.unheard b) false

/-- A pass of a subscriber reads in order, and until it asks its listener its slot is the
subscriber's. -/
structure Frame.Attends (k : SubscriberKey) (c : Cache) (f : Frame) : Prop where
  reads : f.rest.Reads (fun _ => True) f.unheard
  live : f.unheard → f.atListener = false → ∃ i, f.stage.lease = some i ∧ Live k c i

/-- All passes of a subscriber do so. -/
def Attentive (k : SubscriberKey) (s : System) : Prop :=
  ∀ t, ∀ f ∈ s.stack t, f.request.batches k → f.Attends k s.host.cursors

variable {k : SubscriberKey} {s s' : System} {t u : Thread} {ev : Event} {f g : Frame} {i n : Nat}
  {r : Request} {past : List Exchange} {x : Exchange} {e : Effect} {a : e.Reply} {h' : Host}
  {next : e.Reply → Operation (Except Failure r.Result)} {below : List Frame} {c : Cache}

theorem unheard_snoc {rest : Operation (Except Failure r.Result)} :
    (Frame.mk n r (past ++ [x]) rest).unheard =
      x.effect.unheard (past.foldl (fun b x => x.effect.unheard b) false) := by
  simp [Frame.unheard]

/-- Nobody gives up the cursor in a slot that another thread holds. -/
theorem givesUp_held (hs : s.Sound) (hst : s.stack t = ⟨n, r, past, .perform e next⟩ :: below)
    (hr : Replies t s.host e a h') (he : (Event.ask t n r ⟨e, a⟩).givesUp k)
    (hm : s.host.cursors.mapped.find? k = some i)
    (hh : (s.host.cursors.slot i).holder = some u) : u = t := by
  have hg := (ask_granted hs hst hr).2.2.2
  refine Classical.byContradiction fun hne => ?_
  cases e with
  | reset j =>
    obtain rfl : j = k := by simpa [Event.givesUp] using he
    obtain ⟨-, b, hcall⟩ := hg
    simp [Cache.call, Cache.stepsAlone, Cache.advance, Cache.step, Cache.look, Cache.visit, hm, hh,
      hne] at hcall
  | evict j =>
    obtain rfl : j = k := by simpa [Event.givesUp] using he
    obtain ⟨-, b, hcall⟩ := hg
    simp [Cache.call, Cache.stepsAlone, Cache.advance, Cache.step, Cache.look, Cache.visit, hm, hh,
      hne] at hcall
  | _ => cases he

/-- The call that is answered reads in order. -/
theorem attends_mover (hs : s.Sound) (hst : s.stack t = ⟨n, r, past, .perform e next⟩ :: below)
    (hr : Replies t s.host e a h') (hb : r.batches k)
    (ha : (Frame.mk n r past (.perform e next)).Attends k s.host.cursors) :
    (Frame.mk n r (past ++ [⟨e, a⟩]) (next a)).Attends k h'.cursors := by
  have hf := hs.frames t _ (by rw [hst]; exact List.mem_cons_self)
  have hperm := hf.follows.1
  refine ⟨?_, fun hun _ => ?_⟩
  · rw [unheard_snoc]
    exact ha.reads.2 a
  rw [unheard_snoc] at hun
  rw [stage_snoc]
  -- A request that neither takes the lease nor ends the reading leaves the slot alone.
  have hkept : (Frame.mk n r past (.perform e next)).unheard → e.isCallback = false →
      (∀ j, e ≠ .acquire j) → (∀ j, e ≠ .release j) → ∃ i,
        ((past.foldl Stage.next {}).next ⟨e, a⟩).lease = some i ∧ Live k h'.cursors i := by
    intro hold hcall hacq hrel
    obtain ⟨i, hi, hl⟩ := ha.live hold hcall
    refine ⟨i, (Stage.next_lease hacq hrel).trans hi, live_ask hs hst hr ?_ hl⟩
    cases e with
    | reset j =>
      rw [show r = .resetBatching j from hperm.2] at hb
      cases hb
    | evict j =>
      rw [show r = .unsubscribe j from hperm.2] at hb
      cases hb
    | _ => rfl
  cases e with
  | acquire j =>
    obtain rfl := Request.batches_unique hperm.2.2.2 hb
    rcases leased_ask hs hst hr hb (i := a.slot) rfl with hold | ⟨l, he, hl⟩
    · exact absurd (hperm.2.1.symm.trans hold) (by simp)
    · exact ⟨a.slot, rfl, hl⟩
  | release | hasCapacity | offer => cases hun
  | _ => exact hkept hun rfl (by simp) (by simp)

/-- The other calls read in order. -/
theorem attends_other (hs : s.Sound) (hst : s.stack t = ⟨n, r, past, .perform e next⟩ :: below)
    (hr : Replies t s.host e a h') (hgu : u = t ∧ g ∈ below ∨ u ≠ t ∧ g ∈ s.stack u)
    (ha : g.Attends k s.host.cursors) : g.Attends k h'.cursors := by
  refine ⟨ha.reads, fun hun hlis => ?_⟩
  obtain ⟨i, hi, hl⟩ := ha.live hun hlis
  refine ⟨i, hi, live_ask hs hst hr (Bool.eq_false_iff.2 fun he => ?_) hl⟩
  have hh := ((hs.frames u g (mem_of_other hst hgu)).leased i hi).1
  obtain rfl := givesUp_held hs hst hr he hl.mapped hh
  rcases hgu with ⟨-, hbelow⟩ | ⟨hne, -⟩
  · have := hs.waits u _ _ hst g hbelow
    simp [hlis] at this
  · exact hne rfl

theorem attentive_step (hs : s.Sound) (h : Step s ev s') (ha : Attentive k s) :
    Attentive k s' := by
  intro u g hg hb
  cases h with
  | start r =>
    rcases mem_setStack hg with ⟨rfl, rfl⟩ | ⟨rfl, hg⟩ | ⟨-, hg⟩
    · refine ⟨?_, fun hun => by cases hun⟩
      cases r with
      | recoverNext => exact recoverNext_reads
      | _ => cases hb
    · exact ha u g hg hb
    · exact ha u g hg hb
  | ask hst hr =>
    rcases mem_setStack hg with ⟨rfl, rfl⟩ | hgu
    · exact attends_mover hs hst hr hb (ha u _ (by rw [hst]; exact List.mem_cons_self) hb)
    · exact attends_other hs hst hr hgu (ha u g (mem_of_other hst hgu) hb)
  | finish hst =>
    simp only [System.setStack] at hg
    split at hg
    · rename_i hu
      exact ha u g (by rw [hu, hst]; exact List.mem_cons_of_mem _ hg) hb
    · exact ha u g hg hb
  | disturb => exact ha u g hg hb

theorem attentive_run {tr : List Event} (hs : s.Sound) (h : Run Step s tr s')
    (ha : Attentive k s) : Attentive k s' := by
  induction h with
  | nil => exact ha
  | snoc h he ih => exact attentive_step (sound_run hs h) he ih

/-- Whoever reads rows above a position holds the slot of the subscriber, and the position is where
the subscriber's passes are. -/
theorem at_of_scan {d : String} {w : Watermark} {m : Nat}
    {a : (Effect.call (.scanAfter d k w m)).Reply} (hs : s.Sound) (ha : Attentive k s)
    (h : Step s (.ask t n r ⟨.call (.scanAfter d k w m), a⟩) s') :
    r.batches k ∧ ∃ p, At k s p ∧ p.mark = some w := by
  cases h with
  | @ask _ _ _ past _ next below _ _ hst hr =>
    have hmem : Frame.mk n r past (.perform (.call (.scanAfter d k w m)) next) ∈ s.stack t := by
      rw [hst]; exact List.mem_cons_self
    obtain ⟨-, hmay, hmark⟩ := (hs.frames t _ hmem).follows.1
    have hb : r.batches k := by
      cases r <;> simp only [Request.mayCall] at hmay
      simp [Request.batches, hmay.2]
    have hatt := ha t _ hmem hb
    obtain ⟨i, hi, hl⟩ := hatt.live (hatt.reads.1 rfl) rfl
    exact ⟨hb, _, .held hmem ⟨hb, hi, hl⟩, hmark⟩

end DurableTopic.Store

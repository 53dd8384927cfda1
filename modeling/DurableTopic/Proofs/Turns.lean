import DurableTopic.Proofs.Retries
import Mathlib.Data.Nat.Find
import Mathlib.Data.Nat.Init
/-! Every call for a lease returns, however the threads that share a cache interleave. -/
namespace DurableTopic.Cursor

/-- What the threads that share a cache do in the course of time. At some times nothing happens. -/
structure Interleaving where
  state : Nat → Threads
  event : Nat → Option Event
  start : state 0 = {}
  step : ∀ n e, event n = some e → Step (state n) e (state (n + 1))
  rest : ∀ n, event n = none → state (n + 1) = state n

namespace Threads

variable {s s' : Threads} {t : Thread} {k : SubscriberKey} {e : Event} {p : Call} {g : Grant}

end Threads

namespace Interleaving

/-- What happens from one time on, before another. -/
def trace (x : Interleaving) (n m : Nat) : List Event := (List.range' n (m - n)).filterMap x.event

/-- A thread is not starved: if it could go on with its call again and again, it does so some
time. -/
def Serves (x : Interleaving) (t : Thread) : Prop :=
  ∀ n, (∀ m, n ≤ m → ∃ j, m ≤ j ∧ ((x.state j).go t).isSome) →
    ∃ m, n ≤ m ∧ ∃ e, x.event m = some e ∧ e.mover = some t

variable {x : Interleaving} {n m j N : Nat} {t : Thread} {k : SubscriberKey} {p : Call}

open Threads

theorem trace_succ (h : n ≤ m) : x.trace n (m + 1) = x.trace n m ++ (x.event m).toList := by
  rw [trace, Nat.succ_sub h, List.range'_1_concat, Nat.add_sub_cancel' h]
  cases he : x.event m <;> simp [trace, he]

theorem run_trace (h : n ≤ m) : Run (x.state n) (x.trace n m) (x.state m) := by
  induction m, h using Nat.le_induction with
  | base => simpa [trace] using Run.nil (x.state n)
  | succ m hm ih =>
    rw [trace_succ hm]
    cases he : x.event m with
    | none => simpa [x.rest m he] using ih
    | some e => exact ih.snoc (x.step m e he)

theorem run_start : Run {} (x.trace 0 m) (x.state m) := x.start ▸ run_trace (Nat.zero_le m)

theorem sound : (x.state m).Sound := sound_run run_start sound_empty

theorem owned : (x.state m).Owned := by
  induction m with
  | zero => exact x.start ▸ owned_empty
  | succ m ih =>
    cases he : x.event m with
    | none => rwa [x.rest m he]
    | some e => exact owned_step sound ih (x.step m e he)

/-- Nothing ever happens. -/
def still : Interleaving where
  state _ := {}
  event _ := none
  start := rfl
  step _ _ he := by cases he
  rest _ _ := rfl

/-- What happened before some time, one thing more, and nothing after it. -/
def snoc (x : Interleaving) (n : Nat) {e : Event} {s : Threads} (he : Step (x.state n) e s) :
    Interleaving where
  state m := if m ≤ n then x.state m else s
  event m := if m < n then x.event m else if m = n then some e else none
  start := x.start
  step m f hf := by
    rcases Nat.lt_trichotomy m n with hm | rfl | hm
    · rw [if_pos hm] at hf
      simpa [Nat.le_of_lt hm, Nat.succ_le_of_lt hm] using x.step m f hf
    · obtain rfl : e = f := by simpa using hf
      simpa [Nat.not_succ_le_self] using he
    · simp [Nat.not_lt_of_gt hm, Nat.ne_of_gt hm] at hf
  rest m hf := by
    rcases Nat.lt_trichotomy m n with hm | rfl | hm
    · rw [if_pos hm] at hf
      simpa [Nat.le_of_lt hm, Nat.succ_le_of_lt hm] using x.rest m hf
    · simp at hf
    · simp [Nat.not_le_of_gt hm, Nat.not_le_of_gt (Nat.lt_succ_of_lt hm)]

end Interleaving
end DurableTopic.Cursor

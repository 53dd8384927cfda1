import DurableTopic.Store.Effect
/-! Store operations as trees of requests: an operation is done, or it asks for something and goes
on with the answer. Main statements: the monad laws, and running an operation piece by piece. -/

namespace DurableTopic.Store

inductive Operation (α : Type) : Type where
  | done (a : α)
  | perform (e : Effect) (next : e.Reply → Operation α)

namespace Operation

variable {α β : Type}

def bind : Operation α → (α → Operation β) → Operation β
  | done a, f => f a
  | perform e next, f => perform e fun r => (next r).bind f

instance : Monad Operation where
  pure := done
  bind := bind

def ask (e : Effect) : Operation e.Reply := perform e done

/-- Answers every request of an operation in turn. -/
def run {m : Type → Type} [Monad m] (handle : (e : Effect) → m e.Reply) : Operation α → m α
  | done a => pure a
  | perform e next => do run handle (next (← handle e))

theorem bind_done (x : Operation α) : x.bind done = x := by
  induction x with
  | done a => rfl
  | perform e next ih => simp [bind, ih]

theorem bind_assoc {γ : Type} (x : Operation α) (f : α → Operation β) (g : β → Operation γ) :
    (x.bind f).bind g = x.bind fun a => (f a).bind g := by
  induction x with
  | done a => rfl
  | perform e next ih => simp [bind, ih]

instance : LawfulMonad Operation :=
  LawfulMonad.mk' Operation bind_done (fun _ _ => rfl) bind_assoc

@[simp] theorem run_done {m : Type → Type} [Monad m] (handle : (e : Effect) → m e.Reply) (a : α) :
    (done a).run handle = pure a := rfl

@[simp] theorem run_perform {m : Type → Type} [Monad m] (handle : (e : Effect) → m e.Reply)
    (e : Effect) (next : e.Reply → Operation α) :
    (perform e next).run handle = handle e >>= fun r => (next r).run handle := rfl

theorem run_bind {m : Type → Type} [Monad m] [LawfulMonad m] (handle : (e : Effect) → m e.Reply)
    (x : Operation α) (f : α → Operation β) :
    (x.bind f).run handle = x.run handle >>= fun a => (f a).run handle := by
  induction x with
  | done a => simp [bind]
  | perform e next ih => simp [bind, ih]

end Operation

abbrev Op (α : Type) : Type := ExceptT Failure Operation α

namespace Op

variable {α : Type}

def ask (e : Effect) : Op e.Reply := ExceptT.lift (Operation.ask e)

def begin : Op Unit := ExceptT.mk (Operation.ask .begin)

def commit : Op Unit := ExceptT.mk (Operation.ask .commit)

def append (r : Row) : Op Repository.Appended := ExceptT.mk (Operation.ask (.call (.append r)))

def resolve (destination id : String) : Op (Option Watermark) :=
  ExceptT.mk (Operation.ask (.call (.resolve destination id)))

def persist (destination : String) (k : SubscriberKey) (w : Watermark) : Op Status :=
  ExceptT.mk (Operation.ask (.call (.persist destination k w)))

def load (destination : String) (k : SubscriberKey) : Op Watermark :=
  ExceptT.mk (Operation.ask (.call (.load destination k)))

def scanAfter (destination : String) (k : SubscriberKey) (above : Watermark) (limit : Nat) :
    Op Repository.Scan :=
  ask (.call (.scanAfter destination k above limit))

def scanAll (destination : String) (k : SubscriberKey) : Op Repository.Scan :=
  ask (.call (.scanAll destination k))

def register (record : Subscription) (retroactive : Bool) : Op Status :=
  ExceptT.mk (Operation.ask (.call (.put record retroactive)))

def record (destination : String) (k : SubscriberKey) : Op (Option Subscription) :=
  ExceptT.mk (Operation.ask (.call (.get destination k)))

def forget (destination : String) (k : SubscriberKey) : Op Status :=
  ExceptT.mk (Operation.ask (.call (.delete destination k)))

def records (destination : String) : Op (List Subscription) :=
  ExceptT.mk (Operation.ask (.call (.list destination)))

def undelivered (destination : String) (k : SubscriberKey) : Op Int :=
  ExceptT.mk (Operation.ask (.call (.count destination k)))

def hasCapacity : Op Bool := ExceptT.mk (Operation.ask .hasCapacity)

/-- Offers something to a listener, which accepts or rejects it. -/
def offer (o : Offer) : Op Bool := ExceptT.mk (Operation.ask (.offer o))

/-- Fails or goes on as a result says. -/
def ofExcept : Except Failure α → Op α
  | .ok a => pure a
  | .error f => throw f

/-- The result of an operation, which then does not fail itself. -/
def attempt (x : Op α) : Op (Except Failure α) := ExceptT.lift x.run

def log (level : Log.Level) (message : String) (fields : List Log.Field) : Op Unit :=
  ask (.log ⟨level, message, fields⟩)

end Op
end DurableTopic.Store

import DurableTopic.Proofs.Repository
import DurableTopic.Proofs.Tables
/-! A repository that nothing hinders, whichever backend keeps it. -/
namespace DurableTopic
namespace Repository

/-- How a backend cuts a scan short. -/
def first : Repository → Nat → List Row → List Row
  | memory .. => List.take
  | embedded .. => Embedded.first

/-- What is kept for a destination, and what its transaction made of it, is tidy. -/
def Tidy (d : String) : Repository → Prop
  | memory ts t => (Memory.topicOf ts d).Tidy ∧
    ∀ x, t = some x → x.phase = .active → (x.sees ts d).Tidy
  | embedded c _ => c.Free ∧ c.tables.Tidy ∧ ∀ x, c.saved = some x → x.Tidy

/-- A position that is found is the position of the message, what is stored is new and gets the next
number, and the records that are listed are all that there are. -/
def Ledger.Finds (spell : String → String) (l : Ledger) : (c : Call) → c.Reply → Prop
  | .append r, a => ∀ x, a = .ok x → x.status.isOk →
    l.position spell r.id = none ∧ x.sequence = l.next
  | .resolve _ i, a => ∀ o, a = .ok o → o = l.position spell i
  | .list _, a => ∀ xs, a = .ok xs → xs.Nodup ∧ ∀ x, x ∈ xs ↔ ∃ k, l.record k = some x
  | _, _ => True

theorem Ledger.finds_of_yields {spell : String → String} {first : Nat → List Row → List Row}
    {l l' : Ledger} {c : Call} {a : c.Reply} (h : l.Yields spell first c a l') :
    l.Finds spell c a := by
  cases c with
  | append r =>
    obtain ⟨x, rfl, ⟨-, hno, -⟩ | ⟨hp, rfl, -⟩⟩ := h
    · rintro _ ⟨⟩ hok
      exact absurd hok (by simp [hno])
    · rintro _ ⟨⟩ -
      exact ⟨hp, rfl⟩
  | resolve d i =>
    obtain ⟨rfl, -⟩ := h
    rintro _ ⟨⟩
    rfl
  | list d =>
    obtain ⟨⟨xs, rfl, hxs⟩, -⟩ := h
    rintro _ ⟨⟩
    exact hxs
  | _ => trivial

variable {r : Repository} {d : String} {l : Ledger}

theorem tidy_inMemory : inMemory.Tidy d := ⟨Memory.tidy_empty, by simp⟩

theorem tidy_onDatabase {file : Option Embedded.Path} : (onDatabase file).Tidy d :=
  ⟨⟨rfl, rfl⟩, Embedded.tidy_new, by simp⟩

theorem begin_tidy (h : r.Tidy d) (hs : r.Sound d) (hn : r.hasTransaction = false) :
    r.begin.1 = .ok () ∧ r.begin.2.Tidy d ∧ r.begin.2.first = r.first := by
  cases r with
  | memory ts t =>
    refine ⟨rfl, ⟨h.1, ?_⟩, rfl⟩
    rintro x ⟨⟩ -
    exact h.1
  | embedded c t =>
    obtain ⟨hc, ht, -⟩ := h
    obtain rfl : t = none := by simpa [hasTransaction] using hn
    have hsaved : c.saved = none := by simpa using hs.2.2
    have hb : begin (embedded c none) =
        (.ok (), embedded { c with saved := some c.tables, writing := true } (some {})) := by
      simp [begin, Embedded.begin, Embedded.Connection.begin, Embedded.mayWrite_ok hc, hsaved]
    rw [hb]
    refine ⟨rfl, ⟨⟨hc.writable, hc.unlocked⟩, ht, ?_⟩, rfl⟩
    rintro x ⟨⟩
    exact ht

theorem perform_yields {c : Call} (h : r.Tidy d) (hs : r.Sound d) (ha : r.stand d = .active l)
    (hc : c.destination = d) (hn : c.Named) :
    (r.perform c).2.Tidy d ∧ (r.perform c).2.first = r.first ∧
    ∃ l', (r.perform c).2.stand d = .active l' ∧
      l.Yields r.spell r.first c (r.perform c).1 l' := by
  subst hc
  cases r with
  | memory ts t =>
    cases t with
    | none => cases ha
    | some x =>
      by_cases hp : x.phase = .active
      · simp only [stand, hp, if_true, Stand.active.injEq] at ha
        subst ha
        obtain ⟨hp', -, -⟩ := Memory.perform_answers (c := c) hp (hs.2 x rfl hp)
        obtain ⟨ht', hy⟩ := Memory.perform_yields (c := c) hp (hs.2 x rfl hp) (h.2 x rfl hp) hn
        refine ⟨⟨h.1, ?_⟩, rfl, _, by simp [perform, stand, hp'], hy⟩
        rintro y ⟨⟩ -
        exact ht'
      · simp [stand, hp] at ha
  | embedded b t =>
    cases t with
    | none => cases ha
    | some x =>
      cases hf : x.finished with
      | true => simp [stand, hf] at ha
      | false =>
        simp only [stand, hf, Bool.false_eq_true, if_false, Stand.active.injEq] at ha
        subst ha
        obtain ⟨hfree, ht, hsaved⟩ := h
        obtain ⟨hkept, -⟩ := Embedded.perform_answers c hs.1
        obtain ⟨hfree', ht', hy⟩ := Embedded.perform_yields c hfree ht hs.1
        exact ⟨⟨hfree', ht', hkept ▸ hsaved⟩, rfl, _, by simp [perform, stand, hf], hy⟩

theorem commit_tidy (h : r.Tidy d) : r.commit.2.Tidy d ∧ r.commit.2.first = r.first := by
  cases r with
  | memory ts t =>
    cases t with
    | none => exact ⟨h, rfl⟩
    | some x =>
      simp only [commit, Memory.Transaction.commit]
      cases hp : x.phase with
      | active =>
        refine ⟨⟨h.2 x rfl hp, ?_⟩, rfl⟩
        rintro y ⟨⟩ ⟨⟩
      | committed | rolledBack =>
        refine ⟨⟨h.1, ?_⟩, rfl⟩
        rintro y ⟨⟩ hy
        simp [hp] at hy
  | embedded b t =>
    obtain ⟨hfree, ht, hsaved⟩ := h
    cases t with
    | none => exact ⟨⟨hfree, ht, hsaved⟩, rfl⟩
    | some x =>
      simp only [commit, Embedded.commit, Embedded.Connection.commit]
      cases hs : b.saved with
      | none => exact ⟨⟨hfree, ht, by simpa using hsaved⟩, rfl⟩
      | some y => exact ⟨⟨⟨hfree.writable, hfree.unlocked⟩, ht, by simp⟩, rfl⟩

theorem rollback_tidy (h : r.Tidy d) :
    r.rollback.2.Tidy d ∧ r.rollback.2.first = r.first := by
  cases r with
  | memory ts t =>
    cases t with
    | none => exact ⟨h, rfl⟩
    | some x =>
      simp only [rollback, Memory.Transaction.rollback]
      cases hp : x.phase with
      | active =>
        refine ⟨⟨h.1, ?_⟩, rfl⟩
        rintro y ⟨⟩ ⟨⟩
      | committed | rolledBack =>
        refine ⟨⟨h.1, ?_⟩, rfl⟩
        rintro y ⟨⟩ hy
        simp [hp] at hy
  | embedded b t =>
    obtain ⟨hfree, ht, hsaved⟩ := h
    cases t with
    | none => exact ⟨⟨hfree, ht, hsaved⟩, rfl⟩
    | some x =>
      simp only [rollback, Embedded.rollback, Embedded.Connection.rollback]
      split
      · exact ⟨⟨hfree, ht, hsaved⟩, rfl⟩
      · cases hs : b.saved with
        | none => exact ⟨⟨hfree, ht, by simpa using hsaved⟩, rfl⟩
        | some y => exact ⟨⟨⟨hfree.writable, hfree.unlocked⟩, hsaved y hs, by simp⟩, rfl⟩

theorem close_tidy (h : r.Tidy d) : r.close.2.Tidy d ∧ r.close.2.first = r.first := by
  cases r with
  | memory ts t => exact ⟨⟨h.1, by simp⟩, rfl⟩
  | embedded b t =>
    obtain ⟨hfree, ht, hsaved⟩ := h
    cases t with
    | none => exact ⟨⟨hfree, ht, hsaved⟩, rfl⟩
    | some x =>
      simp only [close, Embedded.close, Embedded.Connection.rollback]
      split
      · exact ⟨⟨hfree, ht, hsaved⟩, rfl⟩
      · cases hs : b.saved with
        | none => exact ⟨⟨hfree, ht, by simpa using hsaved⟩, rfl⟩
        | some y => exact ⟨⟨⟨hfree.writable, hfree.unlocked⟩, hsaved y hs, by simp⟩, rfl⟩

namespace Faulty

variable {b : Faulty}

theorem noting_none {p : Point} {note : String} (hf : b.faults = {}) :
    b.noting p note = (none, { b with notes := b.notes ++ [note] }) := by
  obtain ⟨repository, faults, notes⟩ := b
  obtain rfl : faults = {} := hf
  rfl

theorem begin_calm (hf : b.faults = {}) :
    b.begin.1 = b.repository.begin.1 ∧ b.begin.2.repository = b.repository.begin.2 ∧
    b.begin.2.faults = {} := by
  unfold begin
  rw [noting_none hf]
  exact ⟨rfl, rfl, hf⟩

theorem begin_tidied (h : b.Sound d) (ht : b.repository.Tidy d)
    (hn : b.repository.hasTransaction = false) :
    b.begin.2.repository.Tidy d ∧ b.begin.2.repository.first = b.repository.first := by
  obtain ⟨-, ht', hf⟩ := begin_tidy ht h.repository hn
  obtain ⟨hsame, -, -⟩ := noting_spec h.faults .begin "begin"
  unfold begin
  generalize b.noting .begin "begin" = q at hsame
  obtain ⟨f, b'⟩ := q
  split
  · rename_i heq
    cases heq
    exact ⟨hsame ▸ ht, congrArg _ hsame⟩
  · rename_i heq
    cases heq
    simp only at hsame ⊢
    rw [hsame]
    exact ⟨ht', hf⟩

theorem forward_calm {c : Call} (hf : b.faults = {}) :
    b.forward c =
      ((b.repository.perform c).1, { b with repository := (b.repository.perform c).2 }) :=
  forward_eq (hf ▸ honest_none)

theorem seen_none {s : Scan} : s.seen false none = s := by
  obtain ⟨rows, outcome⟩ := s
  cases outcome <;> rfl

/-- Without faults a repository is asked directly. -/
theorem perform_calm {c : Call} (hf : b.faults = {}) :
    (b.perform c).1 = (b.repository.perform c).1 ∧
    (b.perform c).2.repository = (b.repository.perform c).2 ∧ (b.perform c).2.faults = {} := by
  obtain ⟨repository, faults, notes⟩ := b
  obtain rfl : faults = {} := hf
  have hforward := fun c => forward_calm (b := ⟨repository, {}, notes ++ [Call.note c]⟩) (c := c) rfl
  unfold perform
  rw [noting_none rfl]
  cases c with
  | scanAfter d k w n =>
    simp only [hforward (.scanAfter d k w n)]
    exact ⟨seen_none, trivial, trivial⟩
  | scanAll d k =>
    simp only [hforward (.scanAll d k)]
    exact ⟨seen_none, trivial, trivial⟩
  | _ =>
    simp only [unlessHit, Option.bind_none, hforward]
    exact ⟨trivial, trivial, trivial⟩

/-- A fault keeps a call from being made, or is seen in its answer only. -/
theorem perform_made {c : Call} (h : b.faults.Honest) :
    (b.perform c).2.repository = b.repository ∨
    (b.perform c).2.repository = (b.repository.perform c).2 := by
  obtain ⟨hsame, hh, -⟩ := noting_spec h c.point c.note
  unfold perform
  generalize b.noting c.point c.note = q at hsame hh
  obtain ⟨f, b'⟩ := q
  simp only at hsame hh
  cases c with
  | scanAfter | scanAll =>
    simp only [forward_eq hh, hsame]
    exact Or.inr trivial
  | _ =>
    simp only [unlessHit]
    split
    · exact Or.inl hsame
    · simp only [forward_eq hh, hsame]
      exact Or.inr trivial

theorem perform_tidy {c : Call} (h : b.Sound d) (ht : b.repository.Tidy d)
    (ha : b.repository.stand d = .active l) (hc : c.destination = d) (hn : c.Named) :
    (b.perform c).2.repository.Tidy d ∧ (b.perform c).2.repository.first = b.repository.first := by
  obtain ⟨ht', hf, -⟩ := perform_yields ht h.repository ha hc hn
  rcases perform_made (c := c) h.faults with hm | hm <;> rw [hm]
  · exact ⟨ht, rfl⟩
  · exact ⟨ht', hf⟩

/-- A refusal finds nothing. -/
theorem refused_finds {c : Call} {f : Trouble} {a : c.Reply} {spell : String → String}
    (h : c.refused f = some a) (hf : ∀ s, f = .report s → s.isOk = false) : l.Finds spell c a := by
  cases f with
  | report s =>
    cases c with
    | append r =>
      cases h
      rintro _ ⟨⟩ hs
      exact absurd hs (by simp [hf s rfl])
    | resolve | list => cases h
    | _ => trivial
  | raise e =>
    cases h
    cases c with
    | append | resolve | list => exact nofun
    | _ => trivial

theorem unlessHit_finds {c : Call} {f : Option Fault} (h : b.faults.Honest)
    (hr : l.Finds b.repository.spell c (b.repository.perform c).1)
    (hf : ∀ g s, f = some g → g.trouble = .report s → s.isOk = false) :
    l.Finds b.repository.spell c (b.unlessHit c f).1 := by
  unfold unlessHit
  split
  · rename_i a ha
    obtain ⟨g, rfl, hg⟩ := Option.bind_eq_some_iff.1 ha
    exact refused_finds hg fun s => hf g s rfl
  · rw [forward_eq h]
    exact hr

/-- What is found is what there is, whatever fails. -/
theorem perform_finds {c : Call} (h : b.Sound d) (ht : b.repository.Tidy d)
    (ha : b.repository.stand d = .active l) (hc : c.destination = d) (hn : c.Named) :
    l.Finds b.repository.spell c (b.perform c).1 := by
  obtain ⟨-, -, l', -, hy⟩ := perform_yields ht h.repository ha hc hn
  have hr := Ledger.finds_of_yields hy
  obtain ⟨hsame, hh, hf⟩ := noting_spec h.faults c.point c.note
  unfold perform
  generalize b.noting c.point c.note = q at hsame hh hf
  obtain ⟨f, b'⟩ := q
  simp only at hsame hh hf
  rw [← hsame] at hr ⊢
  cases c with
  | scanAfter | scanAll => trivial
  | _ => exact unlessHit_finds hh hr hf

end Faulty
end Repository
end DurableTopic

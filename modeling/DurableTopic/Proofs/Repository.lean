import DurableTopic.Proofs.Embedded
import DurableTopic.Proofs.Memory
import DurableTopic.Repository.Faults
/-! A repository by what it has committed and by what its transaction sees. A fault makes a call
fail; an honest one never makes it look done. -/
namespace DurableTopic
namespace Repository

/-- How a backend keeps text. -/
def spell : Repository → String → String
  | memory .. => id
  | embedded .. => Text.beforeNul

/-- What is committed for a destination. -/
def committed (d : String) : Repository → Ledger
  | memory ts _ => (Memory.topicOf ts d).ledger
  | embedded c _ => (c.saved.getD c.tables).ledger d

/-- Where the transaction of a repository stands. -/
inductive Stand where
  | idle
  | active (l : Ledger)
  | ended

def stand (d : String) : Repository → Stand
  | memory _ none | embedded _ none => .idle
  | memory ts (some t) => if t.phase = .active then .active (t.sees ts d).ledger else .ended
  | embedded c (some h) => if h.finished then .ended else .active (c.tables.ledger d)

/-- Messages are stored in order, and a database has something saved while a transaction is
active. -/
def Sound (d : String) : Repository → Prop
  | memory ts t => (Memory.topicOf ts d).Sound ∧
    ∀ x, t = some x → x.phase = .active → (x.sees ts d).Sound
  | embedded c t => (c.tables.ledger d).Sound ∧ (∀ x, c.saved = some x → (x.ledger d).Sound) ∧
    c.saved.isSome = t.any (!·.finished)

variable {r : Repository} {d : String} {l : Ledger}

theorem committed_sound (h : r.Sound d) : (r.committed d).Sound := by
  cases r with
  | memory ts t => exact Memory.ledger_sound h.1
  | embedded c t =>
    obtain ⟨ht, hs, -⟩ := h
    cases hc : c.saved with
    | none => simpa [committed, hc] using ht
    | some x => simpa [committed, hc] using hs x hc

theorem begin_spec (h : r.Sound d) (hn : r.hasTransaction = false) :
    r.begin.2.Sound d ∧ r.begin.2.committed d = r.committed d ∧ r.begin.2.spell = r.spell ∧
    ((∃ f, r.begin.1 = .error f ∧ r.begin.2.stand d = .idle) ∨
      (r.begin.1 = .ok () ∧ r.begin.2.stand d = .active (r.committed d))) := by
  cases r with
  | memory ts t =>
    refine ⟨⟨h.1, ?_⟩, rfl, rfl, Or.inr ⟨rfl, rfl⟩⟩
    rintro x ⟨⟩ -
    exact h.1
  | embedded c t =>
    cases t with
    | some x => cases hn
    | none =>
      obtain ⟨ht, -, hs⟩ := h
      have hs : c.saved = none := by simpa using hs
      cases hw : c.mayWrite with
      | error s =>
        have hb : begin (embedded c none) = (.error (.runtime s.message), embedded c none) := by
          simp [begin, Embedded.begin, Embedded.Connection.begin, hw]
        rw [hb]
        exact ⟨⟨ht, by simp [hs], by simp [hs]⟩, rfl, rfl, Or.inl ⟨_, rfl, rfl⟩⟩
      | ok _ =>
        have hb : begin (embedded c none) =
            (.ok (), embedded { c with saved := some c.tables, writing := true } (some {})) := by
          simp [begin, Embedded.begin, Embedded.Connection.begin, hw, hs]
        rw [hb]
        refine ⟨⟨ht, ?_, rfl⟩, by simp [committed, hs], rfl,
          Or.inr ⟨rfl, by simp [stand, committed, hs]⟩⟩
        rintro x ⟨⟩
        exact ht

theorem perform_spec {c : Call} (h : r.Sound d) (hs : r.stand d = .active l)
    (hc : c.destination = d) :
    (r.perform c).2.Sound d ∧ (r.perform c).2.committed d = r.committed d ∧
    (r.perform c).2.spell = r.spell ∧
    ∃ l', (r.perform c).2.stand d = .active l' ∧ l.Answers r.spell c (r.perform c).1 l' := by
  subst hc
  cases r with
  | memory ts t =>
    cases t with
    | none => cases hs
    | some x =>
      by_cases hp : x.phase = .active
      · simp only [stand, hp, if_true, Stand.active.injEq] at hs
        subst hs
        obtain ⟨hp', hx', ha⟩ := Memory.perform_answers (c := c) hp (h.2 x rfl hp)
        refine ⟨⟨h.1, ?_⟩, rfl, rfl, _, by simp [perform, stand, hp'], ha⟩
        rintro y ⟨⟩ -
        exact hx'
      · simp [stand, hp] at hs
  | embedded b t =>
    cases t with
    | none => cases hs
    | some x =>
      cases hf : x.finished with
      | true => simp [stand, hf] at hs
      | false =>
        simp only [stand, hf, Bool.false_eq_true, if_false, Stand.active.injEq] at hs
        subst hs
        obtain ⟨ht, hsaved, hb⟩ := h
        obtain ⟨hkept, ha⟩ := Embedded.perform_answers c ht
        obtain ⟨y, hy⟩ : ∃ y, b.saved = some y := by
          simpa [hf, Option.isSome_iff_exists] using hb
        refine ⟨⟨Ledger.answers_sound ha ht, hkept ▸ hsaved, (congrArg _ hkept).trans hb⟩, ?_, rfl,
          _, by simp [perform, stand, hf], ha⟩
        simp [committed, perform, hkept, hy]

theorem commit_spec (h : r.Sound d) (hs : r.stand d = .active l) :
    r.commit.2.Sound d ∧ r.commit.2.spell = r.spell ∧ r.commit.1 = .ok () ∧
    r.commit.2.committed d = l ∧ r.commit.2.stand d = .ended := by
  cases r with
  | memory ts t =>
    cases t with
    | none => cases hs
    | some x =>
      by_cases hp : x.phase = .active
      · simp only [stand, hp, if_true, Stand.active.injEq] at hs
        subst hs
        simp only [commit, Memory.Transaction.commit, hp]
        refine ⟨⟨h.2 x rfl hp, ?_⟩, rfl, trivial, rfl, rfl⟩
        rintro y ⟨⟩ ⟨⟩
      · simp [stand, hp] at hs
  | embedded b t =>
    cases t with
    | none => cases hs
    | some x =>
      cases hf : x.finished with
      | true => simp [stand, hf] at hs
      | false =>
        simp only [stand, hf, Bool.false_eq_true, if_false, Stand.active.injEq] at hs
        subst hs
        obtain ⟨ht, hsaved, hb⟩ := h
        have hb : b.saved.isSome = true := by simpa [hf] using hb
        simp only [commit, Embedded.commit, Embedded.Connection.commit, hb, if_true]
        refine ⟨⟨ht, ?_, rfl⟩, rfl, trivial, rfl, rfl⟩
        rintro y ⟨⟩

theorem close_spec (h : r.Sound d) :
    r.close.2.Sound d ∧ r.close.2.committed d = r.committed d ∧ r.close.2.spell = r.spell ∧
    r.close.2.stand d = .idle := by
  cases r with
  | memory ts t =>
    refine ⟨⟨h.1, ?_⟩, rfl, rfl, rfl⟩
    rintro x ⟨⟩
  | embedded b t =>
    obtain ⟨ht, hsaved, hb⟩ := h
    cases t with
    | none => exact ⟨⟨ht, hsaved, hb⟩, rfl, rfl, rfl⟩
    | some x =>
      cases hf : x.finished with
      | true =>
        have hb : b.saved = none := by simpa [hf] using hb
        simp only [close, Embedded.close, hf, if_true]
        exact ⟨⟨ht, hsaved, by simp [hb]⟩, rfl, rfl, rfl⟩
      | false =>
        obtain ⟨y, hy⟩ : ∃ y, b.saved = some y := by
          simpa [hf, Option.isSome_iff_exists] using hb
        simp only [close, Embedded.close, hf, Embedded.Connection.rollback, hy]
        refine ⟨⟨hsaved y hy, ?_, rfl⟩, by simp [committed, hy], rfl, rfl⟩
        rintro z ⟨⟩

theorem hasTransaction_close : r.close.2.hasTransaction = false := by
  cases r with
  | memory => rfl
  | embedded c t => cases t <;> rfl

theorem rollback_spec (h : r.Sound d) (hs : r.stand d = .active l) :
    r.rollback.2.Sound d ∧ r.rollback.2.spell = r.spell ∧ r.rollback.1 = .ok () ∧
    r.rollback.2.committed d = r.committed d ∧ r.rollback.2.stand d = .ended := by
  cases r with
  | memory ts t =>
    cases t with
    | none => cases hs
    | some x =>
      by_cases hp : x.phase = .active
      · simp only [rollback, Memory.Transaction.rollback, hp]
        refine ⟨⟨h.1, ?_⟩, rfl, trivial, rfl, rfl⟩
        rintro y ⟨⟩ ⟨⟩
      · simp [stand, hp] at hs
  | embedded b t =>
    cases t with
    | none => cases hs
    | some x =>
      cases hf : x.finished with
      | true => simp [stand, hf] at hs
      | false =>
        obtain ⟨ht, hsaved, hb⟩ := h
        obtain ⟨y, hy⟩ : ∃ y, b.saved = some y := by
          simpa [hf, Option.isSome_iff_exists] using hb
        simp only [rollback, Embedded.rollback, hf, Embedded.Connection.rollback, hy]
        refine ⟨⟨hsaved y hy, ?_, rfl⟩, rfl, rfl, by simp [committed, hy], rfl⟩
        rintro z ⟨⟩

/-- Scans show what is there, no fault reports success, and all that is raised are exceptions. -/
structure Faults.Honest (fs : Faults) : Prop where
  shift : fs.shift = 0
  twice : fs.twice = false
  refuses : ∀ p f s, fs.table.find? p = some f → f.trouble = .report s → s.isOk = false
  raises : ∀ p f e, fs.table.find? p = some f → f.trouble = .raise e → e.isException

/-- A repository in order, with honest faults. -/
structure Faulty.Sound (d : String) (r : Faulty) : Prop where
  repository : r.repository.Sound d
  faults : r.faults.Honest

theorem honest_none : ({} : Faults).Honest := ⟨rfl, rfl, by simp, by simp⟩

theorem honest_raising {p : Point} {x : Fault} {f : Failure} (hx : x.trouble = .raise f)
    (hf : f.isException) : ({ table := Assoc.put ∅ p x } : Faults).Honest := by
  have hfind : ∀ q y, (Assoc.put ∅ p x).find? q = some y → y.trouble = .raise f := by
    intro q y hy
    rw [Assoc.find?_put] at hy
    split at hy
    · exact Option.some.inj hy ▸ hx
    · cases hy
  refine ⟨rfl, rfl, fun q y s hy hs => ?_, fun q y e hy he => ?_⟩
  · cases (hfind q y hy).symm.trans hs
  · cases (hfind q y hy).symm.trans he
    exact hf

theorem honest_hit {fs : Faults} {p : Point} (h : fs.Honest) : (fs.hit p).2.Honest ∧
    ∀ f s, (fs.hit p).1 = some f → f.trouble = .report s → s.isOk = false := by
  unfold Faults.hit
  cases hp : fs.table.find? p with
  | none =>
    refine ⟨h, ?_⟩
    rintro f s ⟨⟩
  | some f =>
    cases ht : f.times with
    | none =>
      simp only [ht]
      refine ⟨h, ?_⟩
      rintro f s ⟨⟩ hs
      exact h.refuses p _ s hp hs
    | some n =>
      cases n with
      | zero =>
        simp only [ht]
        refine ⟨h, ?_⟩
        rintro f s ⟨⟩
      | succ n =>
        simp only [ht]
        have hold : ∀ q g, (fs.table.put p { f with times := some n }).find? q = some g →
            ∃ m g', fs.table.find? m = some g' ∧ g'.trouble = g.trouble := by
          intro q g hg
          rw [Assoc.find?_put] at hg
          split at hg
          · cases hg
            exact ⟨p, f, hp, rfl⟩
          · exact ⟨q, g, hg, rfl⟩
        refine ⟨⟨h.shift, h.twice, fun q g s hg hs => ?_, fun q g e hg he => ?_⟩, ?_⟩
        · obtain ⟨m, g', hg', ht⟩ := hold q g hg
          exact h.refuses m g' s hg' (ht.trans hs)
        · obtain ⟨m, g', hg', ht⟩ := hold q g hg
          exact h.raises m g' e hg' (ht.trans he)
        · rintro g s ⟨⟩ hs
          exact h.refuses p _ s hp hs

namespace Faulty

variable {b : Faulty}

theorem forward_eq {c : Call} (h : b.faults.Honest) :
    b.forward c =
      ((b.repository.perform c).1, { b with repository := (b.repository.perform c).2 }) := by
  obtain ⟨repository, ⟨table, shift, twice⟩, notes⟩ := b
  obtain rfl : shift = 0 := h.shift
  cases c with
  | scanAfter d k w limit =>
    have hw : ({ w with sequence := w.sequence - 0 } : Watermark) = w := by simp
    exact congrArg (fun v : Watermark =>
      (((repository.perform (.scanAfter d k v limit)).1,
        ⟨(repository.perform (.scanAfter d k v limit)).2, ⟨table, 0, twice⟩, notes⟩) :
          Scan × Faulty)) hw
  | _ => rfl

theorem seen_prefix {s : Scan} {f : Option Fault} : (s.seen false f).rows <+: s.rows := by
  have : (s.seen false f).rows = f.elim s.rows (s.rows.take ·.rows) := by
    obtain ⟨rows, outcome⟩ := s
    cases f <;> cases outcome <;> rfl
  rw [this]
  cases f with
  | none => exact List.prefix_refl _
  | some f => exact List.take_prefix ..

theorem noting_spec (h : b.faults.Honest) (p : Point) (note : String) :
    (b.noting p note).2.repository = b.repository ∧ (b.noting p note).2.faults.Honest ∧
    ∀ f s, (b.noting p note).1 = some f → f.trouble = .report s → s.isOk = false :=
  ⟨rfl, honest_hit h⟩

/-- A call that is refused is not done. -/
theorem refused_answers {c : Call} {f : Trouble} {a : c.Reply} {spell : String → String}
    (h : c.refused f = some a) (hf : ∀ s, f = .report s → s.isOk = false) :
    l.Answers spell c a l := by
  cases f with
  | report s =>
    have hs := hf s rfl
    cases c with
    | append r =>
      cases h
      refine Or.inr ⟨?_, rfl⟩
      rintro x ⟨⟩
      exact hs
    | persist | put | delete =>
      cases h
      refine Or.inr ⟨?_, rfl⟩
      rintro x ⟨⟩
      exact hs
    | scanAfter | scanAll =>
      cases h
      exact ⟨rfl, List.nil_prefix⟩
    | _ => cases h
  | raise e =>
    cases h
    cases c with
    | append | persist | put | delete =>
      refine Or.inr ⟨?_, rfl⟩
      rintro x ⟨⟩
    | scanAfter | scanAll => exact ⟨rfl, List.nil_prefix⟩
    | load | get =>
      refine ⟨rfl, ?_⟩
      rintro x ⟨⟩
    | _ => rfl

theorem begin_spec (h : b.Sound d) (hn : b.repository.hasTransaction = false)
    (hi : b.repository.stand d = .idle) :
    b.begin.2.Sound d ∧ b.begin.2.repository.committed d = b.repository.committed d ∧
    b.begin.2.repository.spell = b.repository.spell ∧
    ((∃ f, b.begin.1 = .error f ∧ b.begin.2.repository.stand d = .idle) ∨
      (b.begin.1 = .ok () ∧
        b.begin.2.repository.stand d = .active (b.repository.committed d))) := by
  obtain ⟨hr, hc, hs, hb⟩ := Repository.begin_spec h.repository hn
  obtain ⟨hsame, hh, -⟩ := noting_spec h.faults .begin "begin"
  unfold begin
  generalize b.noting .begin "begin" = q at hsame hh
  obtain ⟨f, b'⟩ := q
  split
  · rename_i heq
    cases heq
    exact ⟨⟨hsame ▸ h.repository, hh⟩, congrArg _ hsame, congrArg _ hsame,
      Or.inl ⟨_, rfl, hsame ▸ hi⟩⟩
  · rename_i heq
    cases heq
    simp only at hsame ⊢
    rw [hsame]
    exact ⟨⟨hr, hh⟩, hc, hs, hb⟩

/-- A call was answered inside the transaction, as what the transaction sees says. -/
def Answered (d : String) (l : Ledger) (b : Faulty) (c : Call) (a : c.Reply) (b' : Faulty) : Prop :=
  b'.Sound d ∧ b'.repository.committed d = b.repository.committed d ∧
  b'.repository.spell = b.repository.spell ∧
  ∃ l', b'.repository.stand d = .active l' ∧ l.Answers b.repository.spell c a l'

theorem forward_answered {c : Call} (h : b.Sound d) (hs : b.repository.stand d = .active l)
    (hc : c.destination = d) : Answered d l b c (b.forward c).1 (b.forward c).2 := by
  obtain ⟨hr, hk, hsp, hl⟩ := Repository.perform_spec (c := c) h.repository hs hc
  rw [forward_eq h.faults]
  exact ⟨⟨hr, h.faults⟩, hk, hsp, hl⟩

theorem unlessHit_answered {c : Call} {f : Option Fault} (h : b.Sound d)
    (hs : b.repository.stand d = .active l) (hc : c.destination = d)
    (hf : ∀ g s, f = some g → g.trouble = .report s → s.isOk = false) :
    Answered d l b c (b.unlessHit c f).1 (b.unlessHit c f).2 := by
  unfold unlessHit
  split
  · rename_i a ha
    obtain ⟨g, rfl, hg⟩ := Option.bind_eq_some_iff.1 ha
    exact ⟨h, rfl, rfl, l, hs, refused_answers hg fun s => hf g s rfl⟩
  · exact forward_answered h hs hc

theorem perform_answered {c : Call} (h : b.Sound d) (hs : b.repository.stand d = .active l)
    (hc : c.destination = d) : Answered d l b c (b.perform c).1 (b.perform c).2 := by
  obtain ⟨hsame, hh, hf⟩ := noting_spec h.faults c.point c.note
  unfold perform
  generalize b.noting c.point c.note = q at hsame hh hf
  obtain ⟨f, b'⟩ := q
  simp only at hsame hh hf
  have h' : b'.Sound d := ⟨hsame ▸ h.repository, hh⟩
  have hs' : b'.repository.stand d = .active l := hsame ▸ hs
  unfold Answered
  rw [← hsame]
  cases c with
  | scanAfter d' k w limit =>
    obtain ⟨hb, hk, hsp, l', hl, rfl, ha⟩ := forward_answered h' hs' hc
    refine ⟨hb, hk, hsp, l', hl, rfl, ?_⟩
    simp only [hb.faults.twice]
    exact seen_prefix.trans ha
  | scanAll d' k =>
    obtain ⟨hb, hk, hsp, l', hl, rfl, ha⟩ := forward_answered h' hs' hc
    refine ⟨hb, hk, hsp, l', hl, rfl, ?_⟩
    simp only [hb.faults.twice]
    exact seen_prefix.trans ha
  | _ => exact unlessHit_answered h' hs' hc hf

theorem commit_spec (h : b.Sound d) (hs : b.repository.stand d = .active l) :
    b.commit.2.Sound d ∧ b.commit.2.repository.spell = b.repository.spell ∧
    b.commit.1 = .ok () ∧ b.commit.2.repository.committed d = l ∧
    b.commit.2.repository.stand d = .ended := by
  obtain ⟨hr, hrest⟩ := Repository.commit_spec h.repository hs
  exact ⟨⟨hr, h.faults⟩, hrest⟩

theorem close_spec (h : b.Sound d) :
    b.close.2.Sound d ∧ b.close.2.repository.committed d = b.repository.committed d ∧
    b.close.2.repository.spell = b.repository.spell ∧ b.close.2.repository.stand d = .idle := by
  obtain ⟨hr, hrest⟩ := Repository.close_spec h.repository
  exact ⟨⟨hr, h.faults⟩, hrest⟩

end Faulty
end Repository
end DurableTopic

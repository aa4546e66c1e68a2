import Lox.Syntax.Parse
import Lox.Proofs.Syntax.Unlimited

/-! What it means that a parser reads a phrase, and how this composes. -/
namespace Lox
namespace Parser

/-- From in front of a phrase the parser comes to right behind it, with the given tree, having given
out identities from `i` up to `j` and recorded no error. -/
def Reads {α : Type} (p : Parser α) (i : Nat) (input : List Token) (a : α) (j : Nat)
    (rest : List Token) : Prop :=
  ∀ errors events, ∃ events', p ⟨input,i,errors,events⟩ = .ok a ⟨rest,j,errors,events'⟩

/-- The kind of the next token. -/
def upcoming (input : List Token) : Kind := (input.headD (.eof 1)).kind

@[simp] theorem upcoming_cons (t : Token) (ts : List Token) : upcoming (t :: ts) = t.kind := rfl

theorem upcoming_eq {t : Token} {kind : Kind} (h : t.kind = kind) (ts : List Token) :
    upcoming (t :: ts) = kind := h

variable {α β : Type} {p : Parser α} {i j k : Nat} {s t u : List Token}

theorem Reads.pure (a : α) : Reads (pure a : Parser α) i s a i s :=
  fun _ events => ⟨events,rfl⟩

theorem Reads.bind {f : α → Parser β} {a : α} {b : β} (h : Reads p i s a j t)
    (hf : Reads (f a) j t b k u) : Reads (p >>= f) i s b k u := by
  intro errors events
  obtain ⟨events₁,h₁⟩ := h errors events
  obtain ⟨events₂,h₂⟩ := hf errors events₁
  refine ⟨events₂,?_⟩
  rw [← h₂]
  simp only [Bind.bind,EStateM.bind,h₁]

theorem Reads.map {a : α} (f : α → β) (h : Reads p i s a j t) : Reads (f <$> p) i s (f a) j t := by
  rw [map_eq_pure_bind]
  exact h.bind (.pure _)

theorem peek_reads : Reads peek i s (s.headD (.eof 1)) i s :=
  fun _ events => ⟨events,rfl⟩

theorem note_reads (e : Event) : Reads (note e) i s () i s :=
  fun _ events => ⟨e :: events,rfl⟩

theorem freshId_reads : Reads freshId i s (.numbered i) (i + 1) s :=
  fun _ events => ⟨events,rfl⟩

theorem skip_cons (t : Token) (ts : List Token) (allocated : Nat) (errors : List Error) (events : List Event) :
    skip ⟨t :: ts,allocated,errors,events⟩ =
      .ok () (if t.isEof then ⟨t :: ts,allocated,errors,events⟩ else ⟨ts,allocated,errors,events⟩) :=
  rfl

theorem skip_reads {x : Token} (h : x.kind ≠ .eof) : Reads skip i (x :: s) () i s := by
  intro errors events
  refine ⟨events,?_⟩
  have hx : x.isEof = false := by simpa [Token.isEof] using h
  rw [skip_cons,hx]
  rfl

theorem take?_reads {x : Token} {kinds : List Kind} (h : x.kind ∈ kinds) :
    Reads (take? kinds) i (x :: s) (some x) i s :=
  fun _ events => ⟨events,by simp only [take?,if_pos h]⟩

theorem take?_reads_none {kinds : List Kind} (h : upcoming s ∉ kinds) :
    Reads (take? kinds) i s none i s := by
  intro errors events
  refine ⟨events,?_⟩
  cases s with
  | nil => rfl
  | cons x s => simp only [take?,if_neg (show x.kind ∉ kinds from h)]

theorem expect_reads {x : Token} {kind : Kind} (h : x.kind = kind) (what : Expectation) :
    Reads (expect kind what) i (x :: s) x i s := by
  unfold expect
  exact (take?_reads (by simp [h])).bind (.pure x)

/-! ### Phrases with errors -/

/-- From in front of a phrase the parser comes to right behind it, with the given tree; the tallies tell what has been
given out and recorded before and behind it. -/
def Consumes {α : Type} (p : Parser α) (i : Tally) (input : List Token) (a : α) (j : Tally)
    (rest : List Token) : Prop :=
  ∀ events, ∃ events', p ⟨input,i.allocated,i.errors,events⟩ = .ok a ⟨rest,j.allocated,j.errors,events'⟩

variable {x y z : Tally}

theorem Consumes.pure (a : α) : Consumes (pure a : Parser α) x s a x s :=
  fun events => ⟨events,rfl⟩

theorem Consumes.bind {f : α → Parser β} {a : α} {b : β} (h : Consumes p x s a y t)
    (hf : Consumes (f a) y t b z u) : Consumes (p >>= f) x s b z u := by
  intro events
  obtain ⟨events₁,h₁⟩ := h events
  obtain ⟨events₂,h₂⟩ := hf events₁
  refine ⟨events₂,?_⟩
  rw [← h₂]
  simp only [Bind.bind,EStateM.bind,h₁]

theorem Consumes.map {a : α} (f : α → β) (h : Consumes p x s a y t) : Consumes (f <$> p) x s (f a) y t := by
  rw [map_eq_pure_bind]
  exact h.bind (.pure _)

theorem Reads.consumes {a : α} (h : Reads p x.allocated s a x.allocated t) : Consumes p x s a x t :=
  h x.errors

/-- A step that neither gives out an identity nor records an error, and the parser behind it. -/
theorem Reads.step {f : α → Parser β} {a : α} {b : β} (h : Reads p x.allocated s a x.allocated t)
    (hf : Consumes (f a) x t b z u) : Consumes (p >>= f) x s b z u :=
  h.consumes.bind hf

theorem freshId_consumes : Consumes freshId x s (.numbered x.allocated) x.allocate s :=
  fun events => ⟨events,rfl⟩

/-- In front of an entry of a list beyond the limit an error is recorded, and the entry is read all the same. -/
theorem Consumes.limited {first : Token} {fault : SyntaxFault} {count : Nat} {a : α}
    (h : Consumes p (x.enter fault count first) (first :: s) a y t) :
    Consumes (limited p fault count) x (first :: s) a y t := by
  intro events
  unfold Parser.limited
  by_cases hcount : maxArguments ≤ count
  · rw [Tally.enter_beyond hcount] at h
    simp only [if_pos hcount]
    exact h (.errorCreated (.syntactic fault first) :: events)
  · rw [Tally.enter_within (Nat.not_le.mp hcount)] at h
    simpa only [if_neg hcount] using h events

end Parser
end Lox

import Lox.Proofs.Syntax.Progress

/-! Errors that are found once are never taken back. -/
namespace Lox
namespace Parser

variable {α β : Type} {p : Parser α} {f : α → Parser β} {kinds : List Kind}

/-- The errors from before a run are still there when it ends, as the oldest ones. -/
def Keeps (p : Parser α) : Prop := ∀ r, r.errors <:+ found (p r)

/-- What follows adds to the errors that a run has found. -/
theorem found_bind (hf : ∀ a, Keeps (f a)) (r : Reader) : found (p r) <:+ found ((p >>= f) r) := by
  simp only [Bind.bind,EStateM.bind]
  cases p r with
  | ok a r' => exact hf a r'
  | error e r' => exact List.suffix_refl _

namespace Keeps

theorem bind (h : Keeps p) (hf : ∀ a, Keeps (f a)) : Keeps (p >>= f) :=
  fun r => (h r).trans (found_bind hf r)

theorem pure (a : α) : Keeps (pure a : Parser α) := fun _ => List.suffix_refl _

theorem ite {P : Prop} [Decidable P] {q : Parser α} (hp : Keeps p) (hq : Keeps q) : Keeps (if P then p else q) := by
  split
  · exact hp
  · exact hq

theorem note (e : Event) : Keeps (note e) := fun _ => List.suffix_refl _

theorem report (fault : SyntaxFault) (found : Token) : Keeps (report fault found) := fun _ => List.suffix_cons _ _

theorem freshId : Keeps freshId := fun _ => List.suffix_refl _

theorem peek : Keeps peek := fun _ => List.suffix_refl _

theorem fail (fault : SyntaxFault) : Keeps (fail fault : Parser α) := fun _ => List.suffix_cons _ _

theorem skip : Keeps skip := by
  rintro ⟨rest,allocated,errors,events⟩
  cases rest with
  | nil => exact List.suffix_refl _
  | cons t ts =>
    rw [skip_cons]
    split <;> exact List.suffix_refl _

theorem take? (kinds : List Kind) : Keeps (take? kinds) := by
  intro r
  simp only [Parser.take?]
  split
  · split <;> exact List.suffix_refl _
  · exact List.suffix_refl _

theorem bind_take? {f : Option Token → Parser β} (hnone : Keeps (f none))
    (hsome : ∀ t, t.kind ∈ kinds → Keeps (f (some t))) : Keeps (Parser.take? kinds >>= f) := by
  rintro ⟨rest,allocated,errors,events⟩
  cases rest with
  | nil => exact hnone _
  | cons t ts =>
    by_cases ht : t.kind ∈ kinds <;> simp only [Bind.bind,EStateM.bind,Parser.take?,ht,if_true,if_false]
    · exact hsome t ht ⟨ts,allocated,errors,events⟩
    · exact hnone ⟨t :: ts,allocated,errors,events⟩

theorem expect (kind : Kind) (what : Expectation) : Keeps (expect kind what) :=
  bind_take? (fail _) fun t _ => pure t

/-- A recorded error counts like a raised one. -/
theorem recovering {p : Parser Stmt} (h : Keeps p) : Keeps (recovering p) := by
  intro r
  have hr := h r
  simp only [Parser.recovering]
  split
  next hp => rwa [hp] at hr
  next hp => rwa [hp] at hr

end Keeps

theorem found_recovering (p : Parser Stmt) (r : Reader) : found (recovering p r) = found (p r) := by
  simp only [recovering]
  split
  next hp => rw [hp]; rfl
  next hp => rw [hp]; rfl

end Parser
end Lox

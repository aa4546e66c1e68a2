import Lox.Proofs.Syntax.Kept

/-! Two parses side by side, of a token list with its end mark and of the same list with more tokens in place
of the mark. They stay together up to the seam, unless the first one blames the end mark. -/
namespace Lox

/-- The error is found at the end of the tokens. -/
def Error.isAtEnd : Error → Bool
  | syntactic _ found => found.isEof
  | _ => false

/-- The end mark of a token list, and the tokens that stand in its place in another list. If `spotless`, the
first list is known to have no errors, otherwise to end in a semicolon. -/
structure Seam where
  mark : Token
  later : List Token
  spotless : Prop
  isMark : mark.kind = .eof
  ended : Ended later
  noElse : Parser.upcoming later ≠ .kwElse

/-- The errors that the first list is known not to have. -/
def Seam.Excludes (c : Seam) (e : Error) : Prop := c.spotless ∨ e.isAtEnd = true

namespace Parser

/-- The two parses are at the same point in front of the seam and have found the same. -/
structure Beside (c : Seam) (us : List Token) (r s : Reader) : Prop where
  first : r.rest = us ++ [c.mark]
  second : s.rest = us ++ c.later
  inside : ∀ t ∈ us, t.kind ≠ .eof
  last : c.spotless ∨ ∀ t ∈ us.getLast?, t.kind = .semicolon
  allocated : s.allocated = r.allocated
  errors : s.errors = r.errors

variable {α β : Type} {c : Seam} {loose loose' : Prop} {us vs : List Token} {kinds : List Kind} {p : Parser α}
  {f : α → Parser β} {r s : Reader}

theorem Beside.forward (h : Beside c us r s) (hvs : vs <:+ us) :
    Beside c vs { r with rest := vs ++ [c.mark] } { s with rest := vs ++ c.later } where
  first := rfl
  second := rfl
  inside t ht := h.inside t (hvs.mem ht)
  last := by
    refine h.last.imp_right fun hlast t ht => hlast t ?_
    obtain ⟨ws,rfl⟩ := hvs
    rw [List.getLast?_append,Option.mem_def.mp ht]
    rfl
  allocated := h.allocated
  errors := h.errors

/-- At its end mark a parse stands beside one that has come to the seam. -/
theorem Beside.seam (h : r.rest = [c.mark]) : Beside c [] r { r with rest := c.later } :=
  ⟨h,rfl,by simp,.inr (by simp),rfl,rfl⟩

/-- The outcomes are the same, or the first parse has found an error that it is known not to have. If `loose`,
the first parse may also have stopped at its end mark where the second one reads on. -/
inductive Abreast (c : Seam) (loose : Prop) (us : List Token) :
    EStateM.Result Error Reader α → EStateM.Result Error Reader α → Prop
  | ok {vs a r s} : vs <:+ us → Beside c vs r s → Abreast c loose us (.ok a r) (.ok a s)
  | error {vs e r s} : vs <:+ us → vs ≠ [] → Beside c vs r s → Abreast c loose us (.error e r) (.error e s)
  | ended {a r y} : loose → r.rest = [c.mark] → Abreast c loose us (.ok a r) y
  | excluded {x y} : (∃ e ∈ found x, c.Excludes e) → Abreast c loose us x y

namespace Abreast

variable {x y z : EStateM.Result Error Reader α}

theorem forward (h : Abreast c loose vs x y) (hvs : vs <:+ us) : Abreast c loose us x y := by
  cases h with
  | ok hws hrs => exact .ok (hws.trans hvs) hrs
  | error hws hne hrs => exact .error (hws.trans hvs) hne hrs
  | ended hl hr => exact .ended hl hr
  | excluded he => exact .excluded he

theorem weaken (h : Abreast c loose us x y) (hl : loose → loose') : Abreast c loose' us x y := by
  cases h with
  | ok hws hrs => exact .ok hws hrs
  | error hws hne hrs => exact .error hws hne hrs
  | ended h hr => exact .ended (hl h) hr
  | excluded he => exact .excluded he

/-- From its end mark the first parse goes nowhere. -/
theorem at_mark (h : Abreast c loose [] x y) :
    (∃ a r, x = .ok a r ∧ r.rest = [c.mark]) ∨ ∃ e ∈ found x, c.Excludes e := by
  cases h with
  | ok hws hrs =>
    rw [List.suffix_nil.mp hws] at hrs
    exact .inl ⟨_,_,rfl,hrs.first⟩
  | error hws hne hrs => exact absurd (List.suffix_nil.mp hws) hne
  | ended hl hr => exact .inl ⟨_,_,rfl,hr⟩
  | excluded he => exact .inr he

end Abreast

/-- On both sides of a seam the parser does the same. It takes no errors back. -/
structure Joins (c : Seam) (loose : Prop) (p : Parser α) : Prop where
  keeps : Keeps p
  abreast : ∀ ⦃us r s⦄, Beside c us r s → Abreast c loose us (p r) (p s)

/-- The parser does the same on both sides, and it finds an excluded error where it is run at the end mark: what
it reads ends with a token of its own. -/
structure Closes (c : Seam) (p : Parser α) : Prop extends Joins c False p where
  fails : ∀ r, r.rest = [c.mark] → ∃ e ∈ found (p r), c.Excludes e

namespace Joins

theorem weaken (h : Joins c loose p) (hl : loose → loose') : Joins c loose' p :=
  ⟨h.keeps,fun _ _ _ hrs => (h.abreast hrs).weaken hl⟩

/-- What follows where the first parse may have stopped at its end mark. -/
theorem bind_of (h : Joins c loose p) (hf : ∀ a, Joins c loose' (f a))
    (hmark : loose → ∀ us a r y, r.rest = [c.mark] → Abreast c loose' us (f a r) y) :
    Joins c loose' (p >>= f) := by
  refine ⟨h.keeps.bind fun a => (hf a).keeps,fun us r s hrs => ?_⟩
  have hfound := (found_bind (p := p) (fun a => (hf a).keeps) r).subset
  simp only [Bind.bind,EStateM.bind] at hfound ⊢
  generalize hx : p r = x, hy : p s = y
  have hxy := hx ▸ hy ▸ h.abreast hrs
  rw [hx] at hfound
  cases hxy with
  | ok hvs hrs' => exact ((hf _).abreast hrs').forward hvs
  | error hvs hne hrs' => exact .error hvs hne hrs'
  | ended hl hr => exact hmark hl us _ _ _ hr
  | excluded he =>
    obtain ⟨e,hmem,he⟩ := he
    exact .excluded ⟨e,hfound hmem,he⟩

theorem bind (h : Joins c loose p) (hf : ∀ a, Joins c loose (f a)) : Joins c loose (p >>= f) := by
  refine h.bind_of hf fun hl us a r y hr => ?_
  rcases ((hf a).abreast (.seam hr)).at_mark with ⟨b,r',hx,hr'⟩ | he
  · rw [hx]
    exact .ended hl hr'
  · exact .excluded he

theorem pure (a : α) : Joins c loose (pure a : Parser α) :=
  ⟨.pure a,fun us _ _ hrs => .ok (List.suffix_refl us) hrs⟩

theorem map {g : α → β} (h : Joins c loose p) : Joins c loose (g <$> p) := by
  rw [map_eq_pure_bind]
  exact h.bind fun a => .pure (g a)

theorem ite {P : Prop} [Decidable P] {q : Parser α} (hp : Joins c loose p) (hq : Joins c loose q) :
    Joins c loose (if P then p else q) := by
  split
  · exact hp
  · exact hq

theorem note (e : Event) : Joins c loose (note e) :=
  ⟨.note e,fun us _ _ h =>
    .ok (List.suffix_refl us) ⟨h.first,h.second,h.inside,h.last,h.allocated,h.errors⟩⟩

theorem report (fault : SyntaxFault) (found : Token) : Joins c loose (report fault found) :=
  ⟨.report fault found,fun us _ _ h =>
    .ok (List.suffix_refl us) ⟨h.first,h.second,h.inside,h.last,h.allocated,congrArg (_ :: ·) h.errors⟩⟩

theorem freshId : Joins c loose freshId where
  keeps := .freshId
  abreast us r s h := by
    have hid : Parser.freshId s = .ok (.numbered r.allocated) { s with allocated := r.allocated + 1 } := by
      rw [← h.allocated]
      rfl
    rw [hid]
    exact .ok (List.suffix_refl us) ⟨h.first,h.second,h.inside,h.last,rfl,h.errors⟩

theorem peek : Joins c True peek where
  keeps := .peek
  abreast us r s h := by
    cases us with
    | nil => exact .ended trivial h.first
    | cons t us =>
      have hsame : s.next = r.next := by simp [Reader.next,h.first,h.second]
      have hpeek : Parser.peek s = .ok r.next s := by rw [← hsame]; rfl
      rw [hpeek]
      exact .ok (List.suffix_refl _) h

theorem skip : Joins c True skip where
  keeps := .skip
  abreast us r s h := by
    obtain ⟨rest,allocated,errors,events⟩ := r
    obtain ⟨rest',allocated',errors',events'⟩ := s
    obtain rfl : rest = us ++ [c.mark] := h.first
    obtain rfl : rest' = us ++ c.later := h.second
    cases us with
    | nil =>
      have hmark : c.mark.isEof = true := by simpa [Token.isEof] using c.isMark
      simp only [List.nil_append,skip_cons,hmark,if_true]
      exact .ended trivial rfl
    | cons t us =>
      have ht : t.isEof = false := by simpa [Token.isEof] using h.inside t (by simp)
      simp only [List.cons_append,skip_cons,ht]
      exact .ok (List.suffix_cons t us) (h.forward (List.suffix_cons t us))

/-- At the seam one of the parses may take a token that the other does not have. -/
theorem take?_of (heof : Kind.eof ∉ kinds) (hseam : loose ∨ upcoming c.later ∉ kinds) :
    Joins c loose (take? kinds) where
  keeps := .take? kinds
  abreast us r s h := by
    cases us with
    | nil =>
      have hmark : c.mark.kind ∉ kinds := by rwa [c.isMark]
      have hfirst : Parser.take? kinds r = .ok none r := by
        simp only [Parser.take?,h.first,List.nil_append,if_neg hmark]
      rw [hfirst]
      rcases hseam with hl | hnone
      · exact .ended hl h.first
      · have hsecond : Parser.take? kinds s = .ok none s := by
          obtain ⟨t,ts,hts⟩ := c.ended.exists_cons
          rw [hts,upcoming_cons] at hnone
          simp only [Parser.take?,h.second,List.nil_append,hts,if_neg hnone]
        rw [hsecond]
        exact .ok (List.suffix_refl _) h
    | cons t us =>
      simp only [Parser.take?,h.first,h.second,List.cons_append]
      split
      · exact .ok (List.suffix_cons t us) (h.forward (List.suffix_cons t us))
      · exact .ok (List.suffix_refl _) h

theorem take? (heof : Kind.eof ∉ kinds) : Joins c True (take? kinds) := take?_of heof (.inl trivial)

/-- There is no `else` behind the seam either. -/
theorem take?_else : Joins c loose (Parser.take? [.kwElse]) :=
  take?_of (by simp) (.inr (by simpa using c.noElse))

end Joins

namespace Closes

theorem loosely (h : Closes c p) : Joins c loose p := h.weaken False.elim

/-- What follows may end anywhere, since there is a token of its own in front of it. -/
theorem bind (h : Closes c p) (hf : ∀ a, Joins c False (f a)) : Closes c (p >>= f) where
  toJoins := h.toJoins.bind hf
  fails r hr := by
    obtain ⟨e,hmem,he⟩ := h.fails r hr
    exact ⟨e,(found_bind (fun a => (hf a).keeps) r).subset hmem,he⟩

/-- What comes first may have stopped at the end mark. -/
theorem after (h : Joins c True p) (hf : ∀ a, Closes c (f a)) : Closes c (p >>= f) where
  toJoins := h.bind_of (fun a => (hf a).toJoins) fun _ _ a r _ hr => .excluded ((hf a).fails r hr)
  fails r hr := by
    have hfound := (found_bind (p := p) (fun a => (hf a).keeps) r).subset
    rcases (h.abreast (.seam hr)).at_mark with ⟨a,r',hx,hr'⟩ | ⟨e,hmem,he⟩
    · simp only [Bind.bind,EStateM.bind,hx]
      exact (hf a).fails r' hr'
    · exact ⟨e,hfound hmem,he⟩

theorem map {g : α → β} (h : Closes c p) : Closes c (g <$> p) := by
  rw [map_eq_pure_bind]
  exact h.bind fun a => .pure (g a)

theorem fail (fault : SyntaxFault) : Closes c (fail fault : Parser α) := by
  have hmark {r : Reader} (hr : r.rest = [c.mark]) :
      ∃ e ∈ found (Parser.fail fault r : EStateM.Result Error Reader α), c.Excludes e := by
    refine ⟨.syntactic fault r.next,by simp [found,Parser.fail],.inr ?_⟩
    simp [Error.isAtEnd,Reader.next,hr,Token.isEof,c.isMark]
  refine ⟨⟨.fail fault,fun us r s h => ?_⟩,fun r hr => hmark hr⟩
  cases us with
  | nil => exact .excluded (hmark h.first)
  | cons t us =>
    have hsame : s.next = r.next := by simp [Reader.next,h.first,h.second]
    have hs : Parser.fail fault s = (.error (.syntactic fault r.next)
        (s.note (.errorCreated (.syntactic fault r.next))) : EStateM.Result Error Reader α) := by
      rw [← hsame]
      rfl
    rw [hs]
    exact .error (List.suffix_refl _) (List.cons_ne_nil t us)
      ⟨h.first,h.second,h.inside,h.last,h.allocated,h.errors⟩

/-- The first parse takes no token at its end mark. -/
theorem bind_take? {f : Option Token → Parser β} (heof : Kind.eof ∉ kinds) (hnone : Closes c (f none))
    (hsome : ∀ t, t.kind ∈ kinds → Joins c False (f (some t))) : Closes c (take? kinds >>= f) := by
  have hmark {r : Reader} (hr : r.rest = [c.mark]) : (take? kinds >>= f) r = f none r := by
    have hkind : c.mark.kind ∉ kinds := by rwa [c.isMark]
    simp only [Bind.bind,EStateM.bind,take?,hr,if_neg hkind]
  have hcons {t : Token} {ts : List Token} {r : Reader} (hr : r.rest = t :: ts) :
      (take? kinds >>= f) r = if t.kind ∈ kinds then f (some t) { r with rest := ts } else f none r := by
    by_cases ht : t.kind ∈ kinds <;> simp only [Bind.bind,EStateM.bind,take?,hr,ht,if_true,if_false]
  refine ⟨⟨.bind_take? hnone.keeps fun t ht => (hsome t ht).keeps,fun us r s h => ?_⟩,
    fun r hr => hmark hr ▸ hnone.fails r hr⟩
  cases us with
  | nil =>
    refine .excluded ?_
    rw [hmark h.first]
    exact hnone.fails r h.first
  | cons t us =>
    rw [hcons h.first,hcons h.second]
    split
    next ht =>
      have hforward := h.forward (List.suffix_cons t us)
      exact ((hsome t ht).abreast hforward).forward (List.suffix_cons t us)
    next => exact hnone.abreast h

theorem expect {kind : Kind} (hkind : kind ≠ .eof) (what : Expectation) : Closes c (expect kind what) :=
  bind_take? (by simpa using hkind.symm) (fail _) fun t _ => .pure t

end Closes
end Parser
end Lox

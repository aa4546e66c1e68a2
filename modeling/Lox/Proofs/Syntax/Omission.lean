import Lox.Proofs.Syntax.Budget
import Lox.Proofs.Syntax.Sound

/-! A semicolon in front of a closing brace is left out. Three parses are followed together: of the whole
token list, which is accepted, of the list without the semicolon, and of a list in which the brace closes an
empty block and is followed by what the second parse goes on with. -/
namespace Lox

/-- A semicolon and a closing brace, with the tokens behind them, and an opening brace for the third list. -/
structure Omission where
  semicolon : Token
  brace : Token
  opening : Token
  behind : List Token
  isSemicolon : semicolon.kind = .semicolon
  isBrace : brace.kind = .rightBrace
  isOpening : opening.kind = .leftBrace
  ended : Ended behind

namespace Omission

variable (c : Omission)

/-- The tokens that follow when the brace has been passed over in search of a statement boundary. -/
def resumed : List Token := Parser.boundary c.brace c.behind

def whole (ts : List Token) : List Token := ts ++ c.semicolon :: c.brace :: c.behind

/-- The semicolon is left out. -/
def broken (ts : List Token) : List Token := ts ++ c.brace :: c.behind

/-- The semicolon is there, and the brace closes a block of its own. -/
def mended (ts : List Token) : List Token := ts ++ c.semicolon :: c.opening :: c.brace :: c.resumed

theorem resumed_ended : Ended c.resumed := (Parser.boundary_split c.ended c.brace).choose_spec.2

theorem resumed_length_le : c.resumed.length ≤ c.behind.length := by
  obtain ⟨us,hsplit,-⟩ := Parser.boundary_split c.ended c.brace
  have hlength := congrArg List.length hsplit
  rw [List.length_append] at hlength
  exact hlength ▸ Nat.le_add_left _ _

theorem recover_brace : Parser.recover (c.brace :: c.behind) = c.resumed := by
  simp [Parser.recover,Token.isEof,c.isBrace,resumed]

variable {c} {ts us later : List Token}

theorem behind_length_lt {k : Nat} (h : (c.whole ts).length ≤ k) : c.behind.length + 1 < k := by
  simp only [whole,List.length_append,List.length_cons] at h
  omega

theorem whole_ne_nil : c.whole ts ≠ [] := by simp [whole]

theorem broken_ended (h : ∀ t ∈ ts, t.kind ≠ .eof) : Ended (c.broken ts) :=
  .append h (.cons (by simp [c.isBrace]) c.ended)

theorem whole_ended (h : ∀ t ∈ ts, t.kind ≠ .eof) : Ended (c.whole ts) :=
  .append h (.cons (by simp [c.isSemicolon]) (.cons (by simp [c.isBrace]) c.ended))

theorem mended_ended (h : ∀ t ∈ ts, t.kind ≠ .eof) : Ended (c.mended ts) := by
  have hblock : Ended (c.opening :: c.brace :: c.resumed) :=
    .cons (by simp [c.isOpening]) (.cons (by simp [c.isBrace]) c.resumed_ended)
  exact .append h (.cons (by simp [c.isSemicolon]) hblock)

theorem broken_length_lt : (c.broken ts).length < (c.whole ts).length := by
  simp [broken,whole]

theorem mended_length_le : (c.mended ts).length ≤ (c.whole ts).length + 1 := by
  have hle := c.resumed_length_le
  simp only [mended,whole,List.length_append,List.length_cons]
  omega

/-- The end mark is not what comes next. -/
theorem whole_next (h : Ended (c.whole ts)) : Parser.upcoming (c.whole ts) ≠ .eof := by
  cases ts with
  | nil =>
    intro heof
    rw [whole,List.nil_append,Parser.upcoming_cons,c.isSemicolon] at heof
    cases heof
  | cons t ts =>
    have hcons : Ended (t :: c.whole ts) := h
    exact fun heof => c.whole_ne_nil (hcons.nothing_behind heof)

theorem whole_suffix (h : ts = us ++ later) : c.whole later <:+ c.whole ts :=
  ⟨us,by rw [h,whole,whole,List.append_assoc]⟩

end Omission

namespace Parser

open Reader

variable {α β : Type} {c : Omission} {blocks blocks' rejoins rejoins' : Prop} {k i : Nat} {ts us later : List Token}
  {p : Parser α} {f : α → Parser β} {a : α} {r r' : Reader}

theorem bind_ok {b : β} (h : (p >>= f) r = .ok b r') : ∃ a r₁, p r = .ok a r₁ ∧ f a r₁ = .ok b r' := by
  simp only [Bind.bind,EStateM.bind] at h
  split at h
  next a r₁ ha => exact ⟨a,r₁,ha,h⟩
  next => cases h

/-- The broken parse and the mended one have come together again: an error at the brace apart they have found
the same. -/
inductive Rejoined (c : Omission) (errors errors' : List Error) :
    EStateM.Result Error Reader α → EStateM.Result Error Reader α → Prop
  | ok {fault new a b r s} : fault.isFatal → r.errors = new ++ .syntactic fault c.brace :: errors →
      s.errors = new ++ errors' → Paired [] r s → r.rest.length ≤ c.behind.length →
      Rejoined c errors errors' (.ok a r) (.ok b s)
  | error {fault new e r s} : fault.isFatal → r.errors = new ++ .syntactic fault c.brace :: errors →
      s.errors = new ++ errors' → Paired [] r s → r.rest.length ≤ c.behind.length →
      Rejoined c errors errors' (.error e r) (.error e s)

/-- How far the three parses have come when the one of the whole list has run through a rule: the semicolon is
still ahead; or it has been read, and there the broken parse has stopped at the brace; or the broken parse has
recovered. -/
inductive Stage (c : Omission) (blocks rejoins : Prop) (p : Parser α) (ts : List Token) (i : Nat) (a : α)
    (r' : Reader) : Prop
  | ahead {before after} : ts = before ++ after → r'.rest = c.whole after →
      Reads p i (c.broken ts) a r'.allocated (c.broken after) →
      Reads p i (c.mended ts) a r'.allocated (c.mended after) → Stage c blocks rejoins p ts i a r'
  | blocked {fault} : blocks → r'.rest = c.brace :: c.behind → fault.isFatal →
      (∀ errors events, ∃ events', p ⟨c.broken ts,i,errors,events⟩ =
        .error (.syntactic fault c.brace) ⟨c.brace :: c.behind,r'.allocated,errors,events'⟩) →
      Reads p i (c.mended ts) a r'.allocated (c.opening :: c.brace :: c.resumed) →
      Stage c blocks rejoins p ts i a r'
  | rejoined : rejoins → (∀ errors events errors' events',
      Rejoined c errors errors' (p ⟨c.broken ts,i,errors,events⟩) (p ⟨c.mended ts,i,errors',events'⟩)) →
      Stage c blocks rejoins p ts i a r'

/-- From in front of the given tokens the three parses reach a stage, if the whole list is accepted. -/
def StagedAt (c : Omission) (k : Nat) (blocks rejoins : Prop) (p : Parser α) (ts : List Token) : Prop :=
  (c.whole ts).length ≤ k → ∀ ⦃r a r'⦄, r.rest = c.whole ts → Ended r.rest → p r = .ok a r' →
    r'.errors.length = r.errors.length → Stage c blocks rejoins p ts r.allocated a r'

/-- Errors are never taken back. -/
structure Grows (p : Parser α) : Prop where
  ok : ∀ ⦃r a r'⦄, p r = .ok a r' → r.errors.length ≤ r'.errors.length
  error : ∀ ⦃r e r'⦄, p r = .error e r' → r.errors.length ≤ r'.errors.length

structure Staged (c : Omission) (k : Nat) (blocks rejoins : Prop) (p : Parser α) : Prop where
  grows : Grows p
  cut : ∀ ts, StagedAt c k blocks rejoins p ts

/-- What follows a rule in which the semicolon was read leaves the brace alone. -/
def Idle (c : Omission) (p : Parser α) : Prop :=
  ∀ ⦃r a r'⦄, r.rest = c.brace :: c.behind → p r = .ok a r' → r'.errors.length = r.errors.length →
    r'.rest = r.rest ∧ r'.allocated = r.allocated ∧
      Reads p r.allocated (c.opening :: c.brace :: c.resumed) a r.allocated (c.opening :: c.brace :: c.resumed)

namespace Grows

theorem of_sound {L : Phrases α} (h : Sound p L) : Grows p :=
  ⟨fun _ _ _ hp => (h.ok hp).1.errors,fun _ _ _ hp => (h.error hp).errors⟩

theorem pure (a : α) : Grows (pure a) :=
  .of_sound (.pure (L := fun _ _ _ _ _ => True) fun _ _ => trivial)

theorem fail (fault : SyntaxFault) : Grows (fail fault : Parser α) :=
  .of_sound (fail_sound (L := fun _ _ _ _ _ => True) fault)

theorem expect {kind : Kind} (hkind : kind ≠ .eof) (what : Expectation) : Grows (expect kind what) :=
  .of_sound (.expect (L := fun _ _ _ _ _ => True) hkind fun _ _ _ _ => trivial)

theorem freshId : Grows freshId where
  ok _ _ _ hp := by
    cases hp
    exact Nat.le_refl _
  error _ _ _ hp := by cases hp

theorem bind_returned (h : Grows p) (hf : ∀ ⦃r a r'⦄, p r = .ok a r' → Grows (f a)) : Grows (p >>= f) where
  ok r b r'' hp := by
    simp only [Bind.bind,EStateM.bind] at hp
    split at hp
    next a r' ha => exact Nat.le_trans (h.ok ha) ((hf ha).ok hp)
    next => cases hp
  error r e r'' hp := by
    simp only [Bind.bind,EStateM.bind] at hp
    split at hp
    next a r' ha => exact Nat.le_trans (h.ok ha) ((hf ha).error hp)
    next he =>
      cases hp
      exact h.error he

theorem bind (h : Grows p) (hf : ∀ a, Grows (f a)) : Grows (p >>= f) := h.bind_returned fun _ a _ _ => hf a

end Grows

namespace Stage

theorem weaken (h : Stage c blocks rejoins p ts i a r') (hblocks : blocks → blocks') (hrejoins : rejoins → rejoins') :
    Stage c blocks' rejoins' p ts i a r' := by
  cases h with
  | ahead hts hrest hbroken hmended => exact .ahead hts hrest hbroken hmended
  | blocked hb hrest hfault hbroken hmended => exact .blocked (hblocks hb) hrest hfault hbroken hmended
  | rejoined hj h => exact .rejoined (hrejoins hj) h

theorem congr {q : Parser α} (h : Stage c blocks rejoins q ts i a r')
    (hbroken : ∀ errors events, ∃ events', p ⟨c.broken ts,i,errors,events⟩ = q ⟨c.broken ts,i,errors,events'⟩)
    (hmended : ∀ errors events, ∃ events', p ⟨c.mended ts,i,errors,events⟩ = q ⟨c.mended ts,i,errors,events'⟩) :
    Stage c blocks rejoins p ts i a r' := by
  have hreads {rest : List Token} {j : Nat} (h : Reads q i (c.mended ts) a j rest) :
      Reads p i (c.mended ts) a j rest := by
    intro errors events
    obtain ⟨events',h'⟩ := hmended errors events
    exact h' ▸ h errors events'
  cases h with
  | ahead hts hrest hbroken' hmended' =>
    refine .ahead hts hrest (fun errors events => ?_) (hreads hmended')
    obtain ⟨events',h'⟩ := hbroken errors events
    exact h' ▸ hbroken' errors events'
  | blocked hb hrest hfault hbroken' hmended' =>
    refine .blocked hb hrest hfault (fun errors events => ?_) (hreads hmended')
    obtain ⟨events',h'⟩ := hbroken errors events
    exact h' ▸ hbroken' errors events'
  | rejoined hj h =>
    refine .rejoined hj fun errors events errors' events' => ?_
    obtain ⟨events₁,h₁⟩ := hbroken errors events
    obtain ⟨events₂,h₂⟩ := hmended errors' events'
    rw [h₁,h₂]
    exact h _ _ _ _

/-- A stage that is reached behind a rule which leaves the semicolon ahead. -/
theorem after {j : Nat} {b : β} (hts : ts = us ++ later) (hbroken : Reads p i (c.broken ts) a j (c.broken later))
    (hmended : Reads p i (c.mended ts) a j (c.mended later)) (h : Stage c blocks rejoins (f a) later j b r') :
    Stage c blocks rejoins (p >>= f) ts i b r' := by
  cases h with
  | @ahead vs latest hlater hrest hbroken' hmended' =>
    have hsplit : ts = (us ++ vs) ++ latest := by rw [hts,hlater,List.append_assoc]
    exact .ahead hsplit hrest (hbroken.bind hbroken') (hmended.bind hmended')
  | blocked hb hrest hfault hbroken' hmended' =>
    refine .blocked hb hrest hfault (fun errors events => ?_) (hmended.bind hmended')
    obtain ⟨events₁,h₁⟩ := hbroken errors events
    obtain ⟨events₂,h₂⟩ := hbroken' errors events₁
    refine ⟨events₂,?_⟩
    simp only [Bind.bind,EStateM.bind,h₁,h₂]
  | rejoined hj h =>
    refine .rejoined hj fun errors events errors' events' => ?_
    obtain ⟨events₁,h₁⟩ := hbroken errors events
    obtain ⟨events₂,h₂⟩ := hmended errors' events'
    simp only [Bind.bind,EStateM.bind,h₁,h₂]
    exact h _ _ _ _

end Stage

theorem Together.rejoined {same moves : Prop} {fault : SyntaxFault} {errors errors' new : List Error} {s : Reader}
    {x y : EStateM.Result Error Reader α} (h : Together same moves [] r s x y) (hfault : fault.isFatal)
    (hr : r.errors = new ++ .syntactic fault c.brace :: errors) (hs : s.errors = new ++ errors')
    (hlength : r.rest.length ≤ c.behind.length) : Rejoined c errors errors' x y := by
  cases h with
  | @ok us more a b r' s' hr' hs' _ hpaired _ _ =>
    have hnew : r'.errors = (more ++ new) ++ .syntactic fault c.brace :: errors := by
      rw [hr'.errors,hr,List.append_assoc]
    have hnew' : s'.errors = (more ++ new) ++ errors' := by rw [hs'.errors,hs,List.append_assoc]
    exact .ok hfault hnew hnew' hpaired (Nat.le_trans hr'.length_le hlength)
  | @error us more fault' r' s' hr' hs' _ hpaired _ =>
    have hnew : r'.errors = (more ++ new) ++ .syntactic fault c.brace :: errors := by
      rw [hr'.errors,hr,List.append_assoc]
    have hnew' : s'.errors = (more ++ new) ++ errors' := by rw [hs'.errors,hs,List.append_assoc]
    exact .error hfault hnew hnew' hpaired (Nat.le_trans hr'.length_le hlength)

/-- Once they have come together again the two parses stay together. -/
theorem Rejoined.bind {errors errors' : List Error} {s : Reader} (h : Rejoined c errors errors' (p r) (p s))
    (hk : c.behind.length ≤ k) (hf : ∀ a b, Steady False False k (f a) (f b)) :
    Rejoined c errors errors' ((p >>= f) r) ((p >>= f) s) := by
  simp only [Bind.bind,EStateM.bind]
  generalize p r = x, p s = y at h ⊢
  cases h with
  | @ok fault new a b r s hfault hr hs hpaired hlength =>
    exact (hf a b hpaired (Nat.le_trans hlength hk)).rejoined hfault hr hs hlength
  | error hfault hr hs hpaired hlength => exact .error hfault hr hs hpaired hlength

namespace Staged

theorem weaken (h : Staged c k blocks rejoins p) (hblocks : blocks → blocks') (hrejoins : rejoins → rejoins') :
    Staged c k blocks' rejoins' p where
  grows := h.grows
  cut ts hts _ _ _ hrest hended hp herrors := (h.cut ts hts hrest hended hp herrors).weaken hblocks hrejoins

theorem bind (h : Staged c k blocks rejoins p) (hblocks : blocks → blocks' ∧ ∀ a, Idle c (f a))
    (hrejoins : rejoins → rejoins' ∧ ∀ a b, Steady False False k (f a) (f b))
    (hf : ∀ a, Staged c k blocks' rejoins' (f a)) : Staged c k blocks' rejoins' (p >>= f) where
  grows := h.grows.bind fun a => (hf a).grows
  cut ts hts r b r'' hrest hended hp herrors := by
    obtain ⟨a,r',ha,hp⟩ := bind_ok hp
    have hle := h.grows.ok ha
    have hle' := (hf a).grows.ok hp
    have hstage := h.cut ts hts hrest hended ha (by omega)
    cases hstage with
    | @ahead us later hsplit hlater hbroken hmended =>
      have hsuffix := Omission.whole_suffix (c := c) hsplit
      have hended' : Ended r'.rest := hlater ▸ (hrest ▸ hended).of_suffix hsuffix c.whole_ne_nil
      have hlater' := (hf a).cut later (Nat.le_trans hsuffix.length_le hts) hlater hended' hp (by omega)
      exact hlater'.after hsplit hbroken hmended
    | blocked hb hlater hfault hbroken hmended =>
      obtain ⟨hrest',hallocated,hidle⟩ := (hblocks hb).2 a hlater hp (by omega)
      refine .blocked (hblocks hb).1 (hrest'.trans hlater) hfault (fun errors events => ?_)
        (hallocated ▸ hmended.bind hidle)
      obtain ⟨events',h'⟩ := hbroken errors events
      refine ⟨events',?_⟩
      simp only [Bind.bind,EStateM.bind,h',hallocated]
    | rejoined hj hrejoined =>
      refine .rejoined (hrejoins hj).1 fun errors events errors' events' => ?_
      have hlt := Omission.behind_length_lt hts
      exact (hrejoined errors events errors' events').bind (by omega) (hrejoins hj).2

end Staged

/-- A rule within which the semicolon is never read. -/
abbrev Ahead (c : Omission) (k : Nat) (p : Parser α) : Prop := Staged c k False False p

theorem Ahead.bind (h : Ahead c k p) (hf : ∀ a, Staged c k blocks rejoins (f a)) :
    Staged c k blocks rejoins (p >>= f) :=
  Staged.bind h False.elim False.elim hf

/-! ### Steps -/

theorem expect_cons {t : Token} {kind : Kind} {what : Expectation} (h : r.rest = t :: ts) :
    expect kind what r =
      if t.kind = kind then .ok t { r with rest := ts } else fail (.expected what) r := by
  by_cases ht : t.kind = kind <;>
    simp only [expect,Bind.bind,EStateM.bind,take?,h,List.mem_singleton,ht,if_true,if_false]
  rfl

theorem expect_next {t : Token} {kind : Kind} {what : Expectation} (h : expect kind what r = .ok t r') :
    r.next.kind = kind := by
  obtain ⟨rest,i,errors,events⟩ := r
  cases rest with
  | nil => cases h
  | cons x xs =>
    rw [expect_cons rfl] at h
    split at h
    · assumption
    · cases h

namespace Idle

theorem pure (a : α) : Idle c (pure a) := by
  intro r b r' hrest hp _
  cases hp
  exact ⟨rfl,rfl,.pure a⟩

theorem bind_note {e : Event} {f : Unit → Parser β} (h : Idle c (f ())) : Idle c (note e >>= f) := by
  intro r b r' hrest hp herrors
  obtain ⟨hrest',hallocated,hreads⟩ := @h (r.note e) b r' hrest hp herrors
  exact ⟨hrest',hallocated,(note_reads e).bind hreads⟩

theorem bind_take? {kinds : List Kind} {f : Option Token → Parser β} (hopening : Kind.leftBrace ∉ kinds)
    (hbrace : Kind.rightBrace ∉ kinds) (h : Idle c (f none)) : Idle c (take? kinds >>= f) := by
  intro r b r' hrest hp herrors
  have htake : take? kinds r = .ok none r := by simp only [take?,hrest,c.isBrace,if_neg hbrace]
  simp only [Bind.bind,EStateM.bind,htake] at hp
  obtain ⟨hrest',hallocated,hreads⟩ := h hrest hp herrors
  refine ⟨hrest',hallocated,(take?_reads_none ?_).bind hreads⟩
  rwa [upcoming_cons,c.isOpening]

end Idle

namespace Staged

theorem pure (a : α) : Staged c k blocks rejoins (pure a) where
  grows := .pure a
  cut ts _ r b r' hrest _ hp _ := by
    cases hp
    exact .ahead (List.nil_append _).symm hrest (.pure a) (.pure a)

theorem bind_pure {g : α → β} (h : Staged c k blocks rejoins p) :
    Staged c k blocks rejoins (p >>= fun a => Pure.pure (g a)) :=
  h.bind (fun hb => ⟨hb,fun a => .pure (g a)⟩) (fun hj => ⟨hj,fun _ _ => .pure False.elim⟩) fun a => .pure (g a)

theorem map {g : α → β} (h : Staged c k blocks rejoins p) : Staged c k blocks rejoins (g <$> p) := by
  rw [map_eq_pure_bind]
  exact h.bind_pure

theorem fail (fault : SyntaxFault) : Staged c k blocks rejoins (fail fault : Parser α) where
  grows := .fail fault
  cut _ _ _ _ _ _ _ hp _ := by cases hp

theorem report (fault : SyntaxFault) (found : Token) : Staged c k blocks rejoins (report fault found) where
  grows := .of_sound (report_sound fault found)
  cut _ _ _ _ _ _ _ hp herrors := by
    cases hp
    simp [Reader.record,Reader.note] at herrors

theorem note (e : Event) : Staged c k blocks rejoins (note e) where
  grows := .of_sound (note_sound e)
  cut _ _ _ _ _ hrest _ hp _ := by
    cases hp
    exact .ahead (List.nil_append _).symm hrest (note_reads e) (note_reads e)

theorem freshId : Staged c k blocks rejoins freshId where
  grows := .freshId
  cut _ _ _ _ _ hrest _ hp _ := by
    cases hp
    exact .ahead (List.nil_append _).symm hrest freshId_reads freshId_reads

/-- Where neither the semicolon nor the brace is asked for, the three parses take the same decision. -/
theorem take? {kinds : List Kind} (heof : Kind.eof ∉ kinds) (hsemicolon : Kind.semicolon ∉ kinds)
    (hbrace : Kind.rightBrace ∉ kinds) : Staged c k blocks rejoins (take? kinds) where
  grows := .of_sound (take?_sound heof)
  cut ts _ r found r' hrest _ hp herrors := by
    clear herrors
    cases ts with
    | nil =>
      have hnone : Parser.take? kinds r = .ok none r := by
        simp only [Parser.take?,hrest,Omission.whole,List.nil_append,c.isSemicolon,if_neg hsemicolon]
      cases hnone.symm.trans hp
      refine .ahead (List.nil_append _).symm hrest (take?_reads_none ?_) (take?_reads_none ?_)
      · simpa [Omission.broken,c.isBrace] using hbrace
      · simpa [Omission.mended,c.isSemicolon] using hsemicolon
    | cons t ts =>
      simp only [Parser.take?,hrest,Omission.whole,List.cons_append] at hp
      split at hp <;> cases hp
      next ht => exact .ahead List.singleton_append.symm rfl (take?_reads ht) (take?_reads ht)
      next ht => exact .ahead (List.nil_append _).symm hrest (take?_reads_none ht) (take?_reads_none ht)

theorem expect {kind : Kind} {what : Expectation} (hkind : kind ≠ .eof) (hsemicolon : kind ≠ .semicolon) :
    Staged c k blocks rejoins (expect kind what) where
  grows := .expect hkind what
  cut ts _ r t r' hrest _ hp herrors := by
    clear herrors
    cases ts with
    | nil =>
      rw [expect_cons hrest,c.isSemicolon,if_neg hsemicolon.symm] at hp
      cases hp
    | cons t ts =>
      rw [expect_cons hrest] at hp
      split at hp <;> cases hp
      next ht => exact .ahead List.singleton_append.symm rfl (expect_reads ht what) (expect_reads ht what)

/-- The step at which the parses part. -/
theorem expectSemicolon {what : Expectation} : Staged c k True rejoins (Parser.expect .semicolon what) where
  grows := .expect (by simp) what
  cut ts _ r t r' hrest _ hp herrors := by
    clear herrors
    rcases ts with _ | ⟨t,ts⟩
    · rw [expect_cons hrest,if_pos c.isSemicolon] at hp
      cases hp
      have hfatal : (SyntaxFault.expected what).isFatal := rfl
      refine .blocked trivial rfl hfatal (fun errors events => ?_) (expect_reads c.isSemicolon what)
      refine ⟨.errorCreated (.syntactic (.expected what) c.brace) :: events,?_⟩
      rw [expect_cons (t := c.brace) rfl,c.isBrace,if_neg (by simp)]
      rfl
    · rw [expect_cons hrest] at hp
      split at hp <;> cases hp
      next ht => exact .ahead List.singleton_append.symm rfl (expect_reads ht what) (expect_reads ht what)

end Staged

/-! A step in front of which the next token has been looked at. -/

namespace StagedAt

variable {t : Token}

theorem bind_skip {f : Unit → Parser β} (ht : t.kind ≠ .eof) (h : StagedAt c k blocks rejoins (f ()) ts) :
    StagedAt c k blocks rejoins (skip >>= f) (t :: ts) := by
  intro hts r b r' hrest hended hp herrors
  obtain ⟨_,i,errors,events⟩ := r
  cases hrest
  have hskip := skip_cons t (c.whole ts) i errors events
  rw [show t.isEof = false by simpa [Token.isEof] using ht,if_neg Bool.false_ne_true] at hskip
  have hp' : f () ⟨c.whole ts,i,errors,events⟩ = .ok b r' := by
    change (skip >>= f) ⟨t :: c.whole ts,i,errors,events⟩ = _ at hp
    simpa only [Bind.bind,EStateM.bind,hskip] using hp
  have hlater := h (Nat.le_of_succ_le hts) rfl (hended.tail ht) hp' herrors
  exact hlater.after List.singleton_append.symm (skip_reads ht) (skip_reads ht)

theorem bind_freshId {f : ExprId → Parser β} (h : ∀ id, StagedAt c k blocks rejoins (f id) ts) :
    StagedAt c k blocks rejoins (freshId >>= f) ts := by
  intro hts r b r' hrest hended hp herrors
  have hlater := @h (.numbered r.allocated) hts { r with allocated := r.allocated + 1 } b r' hrest hended hp herrors
  exact hlater.after (List.nil_append _).symm freshId_reads freshId_reads

theorem bind_take? {kinds : List Kind} {f : Option Token → Parser β} (heof : Kind.eof ∉ kinds)
    (hnone : t.kind ∉ kinds → StagedAt c (k + 1) blocks rejoins (f none) (t :: ts))
    (hsome : t.kind ∈ kinds → StagedAt c k blocks rejoins (f (some t)) ts) :
    StagedAt c (k + 1) blocks rejoins (take? kinds >>= f) (t :: ts) := by
  intro hts r b r' hrest hended hp herrors
  by_cases ht : t.kind ∈ kinds
  · have htake : take? kinds r = .ok (some t) { r with rest := c.whole ts } := by
      simp only [take?,hrest,Omission.whole,List.cons_append,if_pos ht]
    simp only [Bind.bind,EStateM.bind,htake] at hp
    rw [hrest] at hended
    have hended' : Ended (c.whole ts) := Ended.tail hended fun h => heof (h ▸ ht)
    exact (hsome ht (Nat.le_of_succ_le_succ hts) rfl hended' hp herrors).after List.singleton_append.symm
      (take?_reads ht) (take?_reads ht)
  · have htake : take? kinds r = .ok none r := by
      simp only [take?,hrest,Omission.whole,List.cons_append,if_neg ht]
    simp only [Bind.bind,EStateM.bind,htake] at hp
    have hstage := hnone ht hts hrest hended hp herrors
    exact hstage.after (List.nil_append _).symm (take?_reads_none ht) (take?_reads_none ht)

/-- The whole list is never empty. -/
theorem zero : StagedAt c 0 blocks rejoins p ts := by
  intro hts
  simp [Omission.whole] at hts

end StagedAt

theorem Staged.of_peek {f : Token → Parser β} (hgrows : ∀ t, Grows (f t))
    (hnil : StagedAt c k blocks rejoins (peek >>= f) [])
    (hcons : ∀ t ts, StagedAt c k blocks rejoins (f t) (t :: ts)) : Staged c k blocks rejoins (peek >>= f) where
  grows := Grows.bind (.of_sound peek_sound) hgrows
  cut ts := by
    cases ts with
    | nil => exact hnil
    | cons t ts =>
      intro hts r b r' hrest hended hp herrors
      change f r.next r = .ok b r' at hp
      rw [show r.next = t by simp [Reader.next,hrest,Omission.whole]] at hp
      exact (hcons t ts hts hrest hended hp herrors).congr (fun _ _ => ⟨_,rfl⟩) fun _ _ => ⟨_,rfl⟩

/-- In front of the semicolon the broken parse sees the brace, so a rule must not tell the two apart. -/
theorem StagedAt.bind_peek {f : Token → Parser β} (hsame : f c.brace = f c.semicolon)
    (h : StagedAt c k blocks rejoins (f c.semicolon) []) : StagedAt c k blocks rejoins (peek >>= f) [] := by
  intro hts r b r' hrest hended hp herrors
  change f r.next r = .ok b r' at hp
  rw [show r.next = c.semicolon by simp [Reader.next,hrest,Omission.whole]] at hp
  refine (h hts hrest hended hp herrors).congr (fun errors events => ⟨events,?_⟩) fun errors events => ⟨events,rfl⟩
  change f c.brace _ = f c.semicolon _
  rw [hsame]

/-- Behind a token that is taken there is one token less. -/
theorem Staged.bind_take? {kinds : List Kind} {f : Option Token → Parser β} (heof : Kind.eof ∉ kinds)
    (hsemicolon : Kind.semicolon ∉ kinds) (hbrace : Kind.rightBrace ∉ kinds)
    (hnone : Staged c (k + 1) blocks rejoins (f none))
    (hsome : ∀ t, t.kind ∈ kinds → Staged c k blocks rejoins (f (some t))) :
    Staged c (k + 1) blocks rejoins (Parser.take? kinds >>= f) where
  grows := by
    refine .bind_returned (.of_sound (take?_sound heof)) fun r found r' hr => ?_
    cases found with
    | none => exact hnone.grows
    | some t => exact (hsome t (take?_returns hr)).grows
  cut ts := by
    cases ts with
    | nil =>
      intro hts r b r' hrest hended hp herrors
      have htake : Parser.take? kinds r = .ok none r := by
        simp only [Parser.take?,hrest,Omission.whole,List.nil_append,c.isSemicolon,if_neg hsemicolon]
      simp only [Bind.bind,EStateM.bind,htake] at hp
      have hstage := hnone.cut [] hts hrest hended hp herrors
      refine hstage.after (List.nil_append _).symm (take?_reads_none ?_) (take?_reads_none ?_)
      · simpa [Omission.broken,c.isBrace] using hbrace
      · simpa [Omission.mended,c.isSemicolon] using hsemicolon
    | cons t ts => exact .bind_take? heof (fun _ => hnone.cut _) fun ht => (hsome t ht).cut ts

end Parser
end Lox

import Lox.Proofs.Syntax.Reading

/-! What can be said of a parser in advance: whatever it returns without recording an error belongs to
given phrases, and errors and identities are never taken back. -/
namespace Lox

/-- From one point of a parse to a later one. -/
structure Reader.Advances (r r' : Reader) : Prop where
  allocated : r.allocated ≤ r'.allocated
  errors : r.errors.length ≤ r'.errors.length

namespace Reader.Advances

theorem refl (r : Reader) : r.Advances r := ⟨Nat.le_refl _,Nat.le_refl _⟩

theorem trans {r r' r'' : Reader} (h : r.Advances r') (h' : r'.Advances r'') : r.Advances r'' :=
  ⟨Nat.le_trans h.allocated h'.allocated,Nat.le_trans h.errors h'.errors⟩

end Reader.Advances

namespace Parser

/-- Phrases with their trees, by the numbers of identities given out before and behind them and the
tokens that follow. -/
abbrev Phrases (α : Type) := Nat → List Token → α → Nat → List Token → Prop

/-- A result without a new error is a phrase in front of the end mark, and what was read is its yield. -/
structure Sound {α : Type} (p : Parser α) (phrases : Phrases α) : Prop where
  ok : ∀ {r a r'}, p r = .ok a r' → r.Advances r' ∧ (r'.errors.length = r.errors.length →
    ∃ ts, r.rest = ts ++ r'.rest ∧ (∀ t ∈ ts, t.kind ≠ .eof) ∧
      phrases r.allocated ts a r'.allocated r'.rest)
  error : ∀ {r e r'}, p r = .error e r' → r.Advances r'

variable {α β : Type} {p : Parser α} {L M : Phrases α} {N : Phrases β}

namespace Sound

theorem weaken (h : Sound p L) (hLM : ∀ i ts a j rest, L i ts a j rest → M i ts a j rest) :
    Sound p M where
  ok hp := by
    obtain ⟨hadv,hphrase⟩ := h.ok hp
    refine ⟨hadv,fun he => ?_⟩
    obtain ⟨ts,hrest,heof,hL⟩ := hphrase he
    exact ⟨ts,hrest,heof,hLM _ _ _ _ _ hL⟩
  error := h.error

theorem pure {a : α} (h : ∀ i rest, L i [] a i rest) : Sound (pure a : Parser α) L where
  ok hp := by
    cases hp
    exact ⟨.refl _,fun _ => ⟨[],rfl,by simp,h _ _⟩⟩
  error hp := by cases hp

/-- The continuation may rely on the phrase in front of its own, and on its value being one that the
first parser returns. -/
theorem bind_returned {f : α → Parser β} (h : Sound p L)
    (hf : ∀ r a r', p r = .ok a r' → Sound (f a) fun j vs b k rest =>
      ∀ i us, L i us a j (vs ++ rest) → N i (us ++ vs) b k rest) : Sound (p >>= f) N where
  ok {r b r''} hp := by
    simp only [Bind.bind,EStateM.bind] at hp
    split at hp
    next a r' hr =>
      obtain ⟨hadv,hL⟩ := h.ok hr
      obtain ⟨hadv',hN⟩ := (hf _ a _ hr).ok hp
      refine ⟨hadv.trans hadv',fun he => ?_⟩
      have hmono := hadv.errors
      have hmono' := hadv'.errors
      obtain ⟨us,hrest,heof,hphrase⟩ := hL (by omega)
      obtain ⟨vs,hrest',heof',hphrase'⟩ := hN (by omega)
      refine ⟨us ++ vs,by rw [hrest,hrest',List.append_assoc],?_,?_⟩
      · intro t ht
        exact (List.mem_append.mp ht).elim (heof t) (heof' t)
      · exact hphrase' _ us (hrest' ▸ hphrase)
    next => cases hp
  error {r e r''} hp := by
    simp only [Bind.bind,EStateM.bind] at hp
    split at hp
    next a r' hr => exact (h.ok hr).1.trans ((hf _ a _ hr).error hp)
    next hr =>
      cases hp
      exact h.error hr

theorem bind {f : α → Parser β} (h : Sound p L)
    (hf : ∀ a, Sound (f a) fun j vs b k rest =>
      ∀ i us, L i us a j (vs ++ rest) → N i (us ++ vs) b k rest) : Sound (p >>= f) N :=
  h.bind_returned fun _ a _ _ => hf a

theorem map {f : α → β} (h : Sound p fun i ts a j rest => N i ts (f a) j rest) : Sound (f <$> p) N := by
  rw [map_eq_pure_bind]
  exact h.bind fun a => .pure fun i rest j us ha => by simpa using ha

end Sound

/-! ### Steps -/

theorem peek_sound : Sound peek fun i ts t j rest => i = j ∧ ts = [] ∧ t = rest.headD (.eof 1) where
  ok hp := by
    cases hp
    exact ⟨.refl _,fun _ => ⟨[],rfl,by simp,rfl,rfl,rfl⟩⟩
  error hp := by cases hp

theorem note_sound (e : Event) : Sound (note e) fun i ts _ j _ => i = j ∧ ts = [] where
  ok hp := by
    cases hp
    exact ⟨⟨Nat.le_refl _,Nat.le_refl _⟩,fun _ => ⟨[],rfl,by simp,rfl,rfl⟩⟩
  error hp := by cases hp

/-- Nothing is read only at the end. -/
theorem skip_sound : Sound skip fun i ts _ j rest =>
    i = j ∧ ((∃ t, ts = [t]) ∨ ts = [] ∧ upcoming rest = .eof) where
  ok {r a r'} hp := by
    obtain ⟨rest,allocated,errors,events⟩ := r
    cases rest with
    | nil =>
      cases hp
      exact ⟨.refl _,fun _ => ⟨[],rfl,by simp,rfl,.inr ⟨rfl,rfl⟩⟩⟩
    | cons t ts =>
      rw [skip_cons] at hp
      split at hp <;> cases hp
      next ht => exact ⟨.refl _,fun _ => ⟨[],rfl,by simp,rfl,.inr ⟨rfl,by simpa [Token.isEof] using ht⟩⟩⟩
      next ht =>
        have ht : t.kind ≠ .eof := by simpa [Token.isEof] using ht
        exact ⟨⟨Nat.le_refl _,Nat.le_refl _⟩,fun _ => ⟨[t],rfl,by simpa using ht,rfl,.inl ⟨t,rfl⟩⟩⟩
  error hp := by cases hp

theorem take?_sound {kinds : List Kind} (hkinds : Kind.eof ∉ kinds) :
    Sound (take? kinds) fun i ts found j rest => i = j ∧
      ((∃ t, found = some t ∧ ts = [t] ∧ t.kind ∈ kinds) ∨
        found = none ∧ ts = [] ∧ upcoming rest ∉ kinds) where
  ok {r a r'} hp := by
    obtain ⟨rest,allocated,errors,events⟩ := r
    cases rest with
    | nil =>
      cases hp
      exact ⟨.refl _,fun _ => ⟨[],rfl,by simp,rfl,.inr ⟨rfl,rfl,hkinds⟩⟩⟩
    | cons t ts =>
      simp only [take?] at hp
      split at hp <;> cases hp
      next ht =>
        refine ⟨⟨Nat.le_refl _,Nat.le_refl _⟩,fun _ => ⟨[t],rfl,?_,rfl,.inl ⟨t,rfl,rfl,ht⟩⟩⟩
        simp only [List.mem_singleton,forall_eq]
        exact fun he => hkinds (he ▸ ht)
      next ht => exact ⟨.refl _,fun _ => ⟨[],rfl,by simp,rfl,.inr ⟨rfl,rfl,ht⟩⟩⟩
  error {r e r'} hp := by
    obtain ⟨rest,allocated,errors,events⟩ := r
    cases rest with
    | nil => cases hp
    | cons t ts =>
      simp only [take?] at hp
      split at hp <;> cases hp

theorem take?_returns {kinds : List Kind} {t : Token} {r r' : Reader}
    (h : take? kinds r = .ok (some t) r') : t.kind ∈ kinds := by
  simp only [take?] at h
  split at h
  · split at h <;> cases h
    assumption
  · cases h

theorem expect_returns {kind : Kind} {what : Expectation} {t : Token} {r r' : Reader}
    (h : expect kind what r = .ok t r') : t.kind = kind := by
  simp only [expect,Bind.bind,EStateM.bind] at h
  split at h
  next found r₁ hr =>
    cases found with
    | none => cases h
    | some x =>
      cases h
      simpa using take?_returns hr
  next => cases h

theorem fail_sound (fault : SyntaxFault) : Sound (fail fault : Parser α) L where
  ok hp := by cases hp
  error hp := by
    cases hp
    exact ⟨Nat.le_refl _,Nat.le_refl _⟩

theorem report_sound (fault : SyntaxFault) (found : Token) :
    Sound (report fault found) fun _ _ _ _ _ => False where
  ok hp := by
    cases hp
    refine ⟨⟨Nat.le_refl _,Nat.le_succ _⟩,fun he => ?_⟩
    simp [Reader.note,Reader.record] at he
  error hp := by cases hp

/-! A step in front of the rest of a rule. -/

namespace Sound

theorem bind_peek {f : Token → Parser β} (h : ∀ t, Sound (f t) fun i ts b j rest =>
    t = (ts ++ rest).headD (.eof 1) → N i ts b j rest) : Sound (peek >>= f) N := by
  refine peek_sound.bind fun t => (h t).weaken fun j vs b k rest hN i us hp => ?_
  obtain ⟨rfl,rfl,ht⟩ := hp
  exact hN ht

theorem bind_note {e : Event} {f : Unit → Parser β} (h : Sound (f ()) N) : Sound (note e >>= f) N := by
  refine (note_sound e).bind fun _ => h.weaken fun j vs b k rest hN i us hp => ?_
  obtain ⟨rfl,rfl⟩ := hp
  exact hN

/-- Behind a recorded error nothing is claimed. -/
theorem bind_report {fault : SyntaxFault} {found : Token} {M : Phrases β} {f : Unit → Parser β}
    (h : Sound (f ()) M) : Sound (report fault found >>= f) N :=
  (report_sound fault found).bind fun _ => h.weaken fun _ _ _ _ _ _ _ _ hp => hp.elim

theorem bind_freshId {f : ExprId → Parser β} (h : ∀ i, Sound (f (.numbered i)) fun j ts b k rest =>
    j = i + 1 → N i ts b k rest) : Sound (freshId >>= f) N := by
  refine ⟨fun {r b r'} hp => ?_,fun {r e r'} hp => ?_⟩
  · have hadv := (h r.allocated).ok hp
    refine ⟨⟨Nat.le_of_succ_le hadv.1.allocated,hadv.1.errors⟩,fun he => ?_⟩
    obtain ⟨ts,hrest,heof,hN⟩ := hadv.2 he
    exact ⟨ts,hrest,heof,hN rfl⟩
  · have hadv := (h r.allocated).error hp
    exact ⟨Nat.le_of_succ_le hadv.allocated,hadv.errors⟩

/-- The token that is passed over has been looked at. -/
theorem bind_skip {t : Token} {f : Unit → Parser β} (ht : t.kind ≠ .eof)
    (h : Sound (f ()) fun i ts b j rest => N i (t :: ts) b j rest) :
    Sound (skip >>= f) fun i ts b j rest => t = (ts ++ rest).headD (.eof 1) → N i ts b j rest := by
  refine skip_sound.bind fun _ => h.weaken fun j vs b k rest hN i us hp ht' => ?_
  obtain ⟨rfl,⟨x,rfl⟩ | ⟨rfl,heof⟩⟩ := hp
  · simp only [List.cons_append,List.headD_cons] at ht'
    exact ht' ▸ hN
  · rw [ht'] at ht
    exact absurd heof ht

theorem bind_freshId_skip {t : Token} {f : ExprId → Parser β} (ht : t.kind ≠ .eof)
    (h : ∀ i, Sound (f (.numbered i)) fun j ts b k rest => j = i + 1 → N i (t :: ts) b k rest) :
    Sound (freshId >>= fun id => skip >>= fun _ => f id) fun i ts b j rest =>
      t = (ts ++ rest).headD (.eof 1) → N i ts b j rest := by
  refine bind_freshId fun i => ?_
  have hskip := bind_skip (f := fun _ => f (.numbered i))
    (N := fun j ts b k rest => j = i + 1 → N i ts b k rest) ht (h i)
  exact hskip.weaken fun j ts b k rest hN hj ht => hN ht hj

theorem bind_take? {kinds : List Kind} {f : Option Token → Parser β} (hkinds : Kind.eof ∉ kinds)
    (hnone : Sound (f none) fun i ts b j rest => upcoming (ts ++ rest) ∉ kinds → N i ts b j rest)
    (hsome : ∀ t, t.kind ∈ kinds → Sound (f (some t)) fun i ts b j rest => N i (t :: ts) b j rest) :
    Sound (take? kinds >>= f) N := by
  refine (take?_sound hkinds).bind_returned fun r found r' hr => ?_
  cases found with
  | none =>
    refine hnone.weaken fun j vs b k rest hN i us hp => ?_
    obtain ⟨rfl,⟨_,⟨⟩,-⟩ | ⟨-,rfl,hnext⟩⟩ := hp
    exact hN hnext
  | some t =>
    refine (hsome t (take?_returns hr)).weaken fun j vs b k rest hN i us hp => ?_
    obtain ⟨rfl,⟨_,⟨⟩,rfl,-⟩ | ⟨⟨⟩,-⟩⟩ := hp
    exact hN

theorem expect {kind : Kind} {what : Expectation} {L : Phrases Token} (hkind : kind ≠ .eof)
    (h : ∀ i t rest, t.kind = kind → L i [t] t i rest) : Sound (expect kind what) L := by
  refine bind_take? (by simpa using hkind.symm) (fail_sound _) fun t ht => .pure fun i rest => ?_
  exact h i t rest (by simpa using ht)

theorem bind_expect {kind : Kind} {what : Expectation} {f : Token → Parser β} (hkind : kind ≠ .eof)
    (h : ∀ t, t.kind = kind → Sound (f t) fun i ts b j rest => N i (t :: ts) b j rest) :
    Sound (Parser.expect kind what >>= f) N := by
  have hexpect : Sound (Parser.expect kind what) fun i ts t j _ => i = j ∧ ts = [t] :=
    .expect hkind fun _ _ _ _ => ⟨rfl,rfl⟩
  refine hexpect.bind_returned fun r t r' hr => (h t (expect_returns hr)).weaken ?_
  rintro j vs b k rest hN i us ⟨rfl,rfl⟩
  exact hN

end Sound

theorem recovering_sound {p : Parser Stmt} {L : Phrases Stmt} (h : Sound p L) :
    Sound (recovering p) fun i ts found j rest => ∃ s, found = some s ∧ L i ts s j rest where
  ok {r a r'} hp := by
    simp only [recovering] at hp
    split at hp <;> cases hp
    next hr =>
      obtain ⟨hadv,hL⟩ := h.ok hr
      refine ⟨hadv,fun he => ?_⟩
      obtain ⟨ts,hrest,heof,hphrase⟩ := hL he
      exact ⟨ts,hrest,heof,_,rfl,hphrase⟩
    next hr =>
      have hadv := h.error hr
      have herrors := hadv.errors
      refine ⟨⟨hadv.allocated,Nat.le_succ_of_le herrors⟩,fun he => ?_⟩
      simp only [Reader.note,Reader.record,List.length_cons] at he
      omega
  error {r e r'} hp := by
    simp only [recovering] at hp
    split at hp <;> cases hp

end Parser
end Lox

import Lox.Token.Scan

/-! Reserved words are never names: the kind of a word is decided by its letters alone. -/
namespace Lox

/-- The kinds of words that stand for a value: names, `this` and `super`. -/
def Kind.isReference : Kind → Bool
  | .identifier | .kwThis | .kwSuper => true
  | _ => false

/-- A word that stands for a value has the kind that belongs to its letters. -/
def Token.Genuine (t : Token) : Prop := t.kind.isReference → t.kind = Kind.ofWord t.lexeme

theorem Kind.mem_keywords_of_ofWord {kind : Kind} {lexeme : String} (h : Kind.ofWord lexeme = kind) :
    kind = .identifier ∨ (lexeme,kind) ∈ Kind.keywords := by
  unfold Kind.ofWord at h
  cases hl : Kind.keywords.lookup lexeme with
  | none =>
    rw [hl] at h
    exact .inl h.symm
  | some found =>
    rw [hl] at h
    obtain rfl : found = kind := h
    obtain ⟨before,behind,heq,-⟩ := List.lookup_eq_some_iff.mp hl
    exact .inr (by simp [heq])

namespace Token.Genuine

variable {t : Token}

/-- No name is spelt like a reserved word. -/
theorem ne_of_name (h : t.Genuine) (hk : t.kind = .identifier) {word : String}
    (hword : Kind.ofWord word ≠ .identifier) : t.lexeme ≠ word := by
  rintro rfl
  have hkind := h (by simp [hk,Kind.isReference])
  exact hword (hkind.symm.trans hk)

theorem lexeme_of_this (h : t.Genuine) (hk : t.kind = .kwThis) : t.lexeme = "this" := by
  have hkind := h (by simp [hk,Kind.isReference])
  rcases Kind.mem_keywords_of_ofWord (hkind.symm.trans hk) with hname | hmem
  · cases hname
  · simpa [Kind.keywords] using hmem

theorem lexeme_of_super (h : t.Genuine) (hk : t.kind = .kwSuper) : t.lexeme = "super" := by
  have hkind := h (by simp [hk,Kind.isReference])
  rcases Kind.mem_keywords_of_ofWord (hkind.symm.trans hk) with hname | hmem
  · cases hname
  · simpa [Kind.keywords] using hmem

end Token.Genuine

namespace Piece

theorem punctuator?_spec {c : Char} {kind : Kind} (h : punctuator? c = some kind) :
    kind ≠ .eof ∧ kind.isReference = false := by
  unfold punctuator? at h
  split at h <;> cases h <;> exact ⟨by simp,rfl⟩

theorem operator?_spec {c : Char} {short long : Kind} (h : operator? c = some (short,long)) :
    (short ≠ .eof ∧ short.isReference = false) ∧ long ≠ .eof ∧ long.isReference = false := by
  unfold operator? at h
  split at h <;> cases h <;> exact ⟨⟨by simp,rfl⟩,by simp,rfl⟩

theorem ofWord_ne_eof (lexeme : String) : Kind.ofWord lexeme ≠ .eof := by
  intro h
  rcases Kind.mem_keywords_of_ofWord h with hname | hmem
  · cases hname
  · simp [Kind.keywords] at hmem

/-- A piece that is a token is no end mark, and a word among them is genuine. -/
theorem kind_first {c : Char} {cs rest : List Char} {p : Piece} {kind : Kind}
    (hp : first c cs = (p,rest)) (h : p.shape = .token kind) : kind ≠ .eof ∧
      (kind.isReference → kind = Kind.ofWord (String.ofList p.text)) := by
  have hplain {kind : Kind} {q : Prop} (hk : kind ≠ .eof ∧ kind.isReference = false) :
      kind ≠ .eof ∧ (kind.isReference → q) := ⟨hk.1,fun hr => by simp [hk.2] at hr⟩
  unfold first at hp
  split at hp
  · cases hp
    cases h
  split at hp
  next hc =>
    cases hp
    cases h
    exact hplain (punctuator?_spec hc)
  split at hp
  next hc =>
    have hspec := operator?_spec hc
    split at hp <;> cases hp <;> cases h
    · exact hplain hspec.2
    · exact hplain hspec.1
  split at hp
  · split at hp <;> cases hp <;> cases h
    exact hplain ⟨by simp,rfl⟩
  split at hp
  · dsimp only at hp
    split at hp <;> cases hp <;> cases h
    exact hplain ⟨by simp,rfl⟩
  split at hp
  · cases hp
    cases h
    exact hplain ⟨by simp,rfl⟩
  split at hp <;> cases hp <;> cases h
  exact ⟨ofWord_ne_eof _,fun _ => rfl⟩

theorem kind_cut {cs : List Char} {p : Piece} (h : p ∈ cut cs) {kind : Kind}
    (hshape : p.shape = .token kind) : kind ≠ .eof ∧
      (kind.isReference → kind = Kind.ofWord (String.ofList p.text)) := by
  fun_induction cut cs with
  | case1 => simp at h
  | case2 c cs ih =>
    rcases List.mem_cons.mp h with rfl | h
    · exact kind_first rfl hshape
    · exact ih h

end Piece

theorem mem_place {here : Position} {ps : List Piece} {q : Position × Piece}
    (h : q ∈ place here ps) : q.2 ∈ ps := by
  induction ps generalizing here with
  | nil => simp [place] at h
  | cons p ps ih =>
    rcases List.mem_cons.mp h with rfl | h
    · exact List.mem_cons_self
    · exact List.mem_cons_of_mem p (ih h)

/-- What is scanned is a list of genuine tokens in front of the only end mark. -/
theorem scan_tokens (source : String) : ∃ ts line, (scan source).tokens = ts ++ [.eof line] ∧
    ∀ t ∈ ts, t.kind ≠ .eof ∧ t.Genuine := by
  have hsplit : (scan source).tokens = ((scan source).pieces.filterMap fun q =>
      q.2.item? q.1).filterMap Item.token? ++ [.eof (scan source).lastLine] := by
    simp [Scan.tokens,Scan.items,Item.token?]
  refine ⟨_,_,hsplit,fun t ht => ?_⟩
  simp only [List.mem_filterMap] at ht
  obtain ⟨item,⟨⟨here,p⟩,hp,hitem⟩,ht⟩ := ht
  have hcut := mem_place hp
  unfold Piece.item? at hitem
  split at hitem <;> cases hitem <;> cases ht
  next kind hshape => exact Piece.kind_cut hcut hshape

end Lox

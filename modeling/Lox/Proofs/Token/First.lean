import Lox.Token.Scan
import Mathlib.Data.List.TakeWhile

/-! What the first piece of a text is, by the characters that it begins with. -/
namespace Lox
namespace Piece

theorem isBlank_iff {c : Char} : isBlank c ↔ c ∈ [' ','\r','\t','\n'] := by
  simp [isBlank,or_assoc]

/-- Characters that no fixed lexeme, string or blank begins with. -/
structure Plain (c : Char) : Prop where
  blank : isBlank c = false
  punctuator : punctuator? c = none
  operator : operator? c = none
  slash : c ≠ '/'
  quote : c ≠ '"'

theorem Plain.ne_newline {c : Char} (h : Plain c) : c ≠ '\n' := by
  rintro rfl
  cases h.blank

theorem Plain.not_mem {c : Char} (h : Plain c) : c ∉ [' ','\r','\t','\n'] :=
  fun hmem => absurd (isBlank_iff.mpr hmem) (by simp [h.blank])

/-- A token in front of the text `c :: cs`: its kind, its lexeme and the text behind it. -/
inductive Leads (c : Char) (cs : List Char) : Kind → List Char → List Char → Prop
  | punctuator {kind : Kind} (h : punctuator? c = some kind) : Leads c cs kind [c] cs
  | long {short long : Kind} {rest : List Char} (h : operator? c = some (short,long)) (hcs : cs = '=' :: rest) :
    Leads c cs long [c,'='] rest
  | short {short long : Kind} (h : operator? c = some (short,long)) (hcs : cs.head? ≠ some '=') :
    Leads c cs short [c] cs
  | slash (h : c = '/') (hcs : cs.head? ≠ some '/') : Leads c cs .slash ['/'] cs
  | string {contents rest : List Char} (h : c = '"') (hcs : cs = contents ++ '"' :: rest) (hquote : '"' ∉ contents) :
    Leads c cs (.string (String.ofList contents)) ('"' :: (contents ++ ['"'])) rest
  | number (h : Plain c) (hdigit : c.isDigit) :
    Leads c cs (.number (numberValue (spanNumber (c :: cs)).1)) (spanNumber (c :: cs)).1 (spanNumber (c :: cs)).2
  | word (h : Plain c) (hdigit : c.isDigit = false) (hname : isNameStart c) :
    Leads c cs (Kind.ofWord (String.ofList (c :: cs.takeWhile isNameRest))) (c :: cs.takeWhile isNameRest)
      (cs.dropWhile isNameRest)

/-- The first piece of the text `c :: cs` with the text behind it. -/
inductive First (c : Char) (cs : List Char) : Piece → List Char → Prop
  | token {kind : Kind} {text rest : List Char} (h : Leads c cs kind text rest) : First c cs ⟨.token kind,text⟩ rest
  | blank (h : isBlank c) : First c cs ⟨.blank,[c]⟩ cs
  | comment {rest : List Char} (h : c = '/') (hcs : cs = '/' :: rest) :
    First c cs ⟨.comment,'/' :: '/' :: rest.takeWhile (· ≠ '\n')⟩ (rest.dropWhile (· ≠ '\n'))
  | unclosed (h : c = '"') (hcs : '"' ∉ cs) : First c cs ⟨.unclosed,'"' :: cs⟩ []
  | stray (h : Plain c) (hdigit : c.isDigit = false) (hname : isNameStart c = false) : First c cs ⟨.stray c,[c]⟩ cs

/-- A text that has a quote, cut at the first one. -/
theorem split_quote {cs rest : List Char} {q : Char} (h : cs.dropWhile (· ≠ '"') = q :: rest) :
    q = '"' ∧ cs = cs.takeWhile (· ≠ '"') ++ '"' :: rest ∧ '"' ∉ cs.takeWhile (· ≠ '"') := by
  have hq : q = '"' := by
    have hhead := List.head?_dropWhile_not (fun x : Char => decide (x ≠ '"')) cs
    rw [h] at hhead
    simpa using hhead
  subst hq
  refine ⟨rfl,?_,fun hmem => ?_⟩
  · rw [← h,List.takeWhile_append_dropWhile]
  · simpa using List.mem_takeWhile_imp hmem

theorem span_quote {contents : List Char} (h : '"' ∉ contents) (rest : List Char) :
    (contents ++ '"' :: rest).takeWhile (· ≠ '"') = contents ∧
      (contents ++ '"' :: rest).dropWhile (· ≠ '"') = '"' :: rest := by
  have hall : ∀ c ∈ contents, decide (c ≠ '"') = true := fun c hc => decide_eq_true fun heq => h (heq ▸ hc)
  rw [List.takeWhile_append_of_pos hall,List.dropWhile_append_of_pos hall]
  simp

theorem span_no_quote {cs : List Char} (h : '"' ∉ cs) :
    cs.takeWhile (· ≠ '"') = cs ∧ cs.dropWhile (· ≠ '"') = [] := by
  have hall : ∀ c ∈ cs, decide (c ≠ '"') = true := fun c hc => decide_eq_true fun heq => h (heq ▸ hc)
  exact ⟨List.takeWhile_eq_self_iff.mpr hall,List.dropWhile_eq_nil_iff.mpr hall⟩

/-- A comment ends in front of the newline or of the end of the text. -/
theorem split_newline (cs : List Char) : '\n' ∉ cs.takeWhile (· ≠ '\n') ∧
    ∀ c ∈ (cs.dropWhile (· ≠ '\n')).head?, c = '\n' := by
  refine ⟨fun hmem => by simpa using List.mem_takeWhile_imp hmem,fun c hc => ?_⟩
  have hhead := List.head?_dropWhile_not (fun x : Char => decide (x ≠ '\n')) cs
  rw [hc] at hhead
  simpa using hhead

theorem span_newline {body rest : List Char} (hbody : '\n' ∉ body) (hrest : ∀ c ∈ rest.head?, c = '\n') :
    (body ++ rest).takeWhile (· ≠ '\n') = body ∧ (body ++ rest).dropWhile (· ≠ '\n') = rest := by
  have hall : ∀ c ∈ body, decide (c ≠ '\n') = true := fun c hc => decide_eq_true fun heq => hbody (heq ▸ hc)
  rw [List.takeWhile_append_of_pos hall,List.dropWhile_append_of_pos hall]
  cases rest with
  | nil => simp
  | cons c cs => simp [hrest c rfl]

theorem mem_spanNumber {cs : List Char} {c : Char} (h : c ∈ (spanNumber cs).1) : c.isDigit ∨ c = '.' := by
  have hdigits {ds : List Char} (hc : c ∈ ds.takeWhile Char.isDigit) : c.isDigit ∨ c = '.' :=
    .inl (List.mem_takeWhile_imp hc)
  unfold spanNumber at h
  split at h
  · split at h
    · rcases List.mem_append.mp h with hwhole | hfraction
      · exact hdigits hwhole
      · exact (List.mem_cons.mp hfraction).elim .inr hdigits
    · exact hdigits h
  · exact hdigits h

theorem first_cases (c : Char) (cs : List Char) : First c cs (first c cs).1 (first c cs).2 := by
  unfold first
  split
  next hblank => exact .blank hblank
  next hblank =>
  split
  next hkind => exact .token (.punctuator hkind)
  next hkind =>
  split
  next short long hop =>
    split
    · exact .token (.long hop rfl)
    next hne => exact .token (.short hop fun hhead => (List.head?_eq_some_iff.mp hhead).elim hne)
  next hop =>
  split
  next hslash =>
    subst hslash
    split
    · exact .comment rfl rfl
    next hne => exact .token (.slash rfl fun hhead => (List.head?_eq_some_iff.mp hhead).elim hne)
  next hslash =>
  split
  next hquote =>
    subst hquote
    dsimp only
    split
    next hnone =>
      have hall := List.dropWhile_eq_nil_iff.mp hnone
      rw [List.takeWhile_eq_self_iff.mpr hall]
      exact .unclosed rfl fun hmem => by simpa using hall _ hmem
    next q rest hsome =>
      obtain ⟨rfl,hcs,hmem⟩ := split_quote hsome
      exact .token (.string rfl hcs hmem)
  next hquote =>
  have hplain : Plain c := ⟨by simpa using hblank,Option.eq_none_iff_forall_ne_some.mpr hkind,
    Option.eq_none_iff_forall_ne_some.mpr fun q => hop q.1 q.2,hslash,hquote⟩
  split
  next hdigit => exact .token (.number hplain hdigit)
  next hdigit =>
  split
  next hname => exact .token (.word hplain (by simpa using hdigit) hname)
  next hname => exact .stray hplain (by simpa using hdigit) (by simpa using hname)

theorem not_blank_of_punctuator {c : Char} {kind : Kind} (h : punctuator? c = some kind) : isBlank c = false := by
  unfold punctuator? at h
  split at h <;> cases h <;> decide

theorem not_blank_of_operator {c : Char} {kinds : Kind × Kind} (h : operator? c = some kinds) :
    isBlank c = false ∧ punctuator? c = none := by
  unfold operator? at h
  split at h <;> cases h <;> decide

/-- A plain character begins a number, a name or nothing. -/
theorem Plain.first_eq {c : Char} (h : Plain c) (cs : List Char) : first c cs =
    if c.isDigit then
      (⟨.token (.number (numberValue (spanNumber (c :: cs)).1)),(spanNumber (c :: cs)).1⟩,(spanNumber (c :: cs)).2)
    else if isNameStart c then
      (⟨.token (Kind.ofWord (String.ofList (c :: cs.takeWhile isNameRest))),c :: cs.takeWhile isNameRest⟩,
        cs.dropWhile isNameRest)
    else (⟨.stray c,[c]⟩,cs) := by
  unfold first
  rw [if_neg (by simp [h.blank]),if_neg h.slash,if_neg h.quote]
  simp only [h.punctuator,h.operator]

theorem first_quote (cs : List Char) : first '"' cs =
    if cs.dropWhile (· ≠ '"') = [] then (⟨.unclosed,'"' :: cs.takeWhile (· ≠ '"')⟩,[])
    else (⟨.token (.string (String.ofList (cs.takeWhile (· ≠ '"')))),'"' :: (cs.takeWhile (· ≠ '"') ++ ['"'])⟩,
      (cs.dropWhile (· ≠ '"')).drop 1) := by
  have hpunctuator : punctuator? '"' = none := rfl
  have hoperator : operator? '"' = none := rfl
  unfold first
  rw [if_neg (by decide)]
  simp only [hpunctuator,hoperator,if_neg (show '"' ≠ '/' by decide),if_true]
  split
  next hnone => rw [if_pos hnone]
  next q rest hsome =>
    obtain ⟨rfl,-,-⟩ := split_quote hsome
    rw [hsome,if_neg (List.cons_ne_nil _ _)]
    rfl

theorem newlines_eq_zero {p : Piece} (h : '\n' ∉ p.text) : p.newlines = 0 := List.count_eq_zero.mpr h

theorem Leads.eq {c : Char} {cs text rest : List Char} {kind : Kind} (h : Leads c cs kind text rest) :
    first c cs = (⟨.token kind,text⟩,rest) := by
  cases h with
  | punctuator h =>
    unfold first
    rw [if_neg (by simp [not_blank_of_punctuator h])]
    simp only [h]
  | long h hcs =>
    obtain ⟨hblank,hpunctuator⟩ := not_blank_of_operator h
    subst hcs
    unfold first
    rw [if_neg (by simp [hblank])]
    simp only [hpunctuator,h]
  | short h hcs =>
    obtain ⟨hblank,hpunctuator⟩ := not_blank_of_operator h
    unfold first
    rw [if_neg (by simp [hblank])]
    simp only [hpunctuator,h]
    split
    · exact absurd rfl hcs
    · rfl
  | slash h hcs =>
    subst h
    have hpunctuator : punctuator? '/' = none := rfl
    have hoperator : operator? '/' = none := rfl
    unfold first
    rw [if_neg (by decide)]
    simp only [hpunctuator,hoperator,if_true]
    split
    · exact absurd rfl hcs
    · rfl
  | string h hcs hquote =>
    subst h hcs
    rw [first_quote,(span_quote hquote rest).1,(span_quote hquote rest).2,if_neg (List.cons_ne_nil _ _)]
    rfl
  | number h hdigit => rw [h.first_eq,if_pos hdigit]
  | word h hdigit hname => rw [h.first_eq,if_neg (by simp [hdigit]),if_pos hname]

theorem First.eq {c : Char} {cs others : List Char} {p : Piece} (h : First c cs p others) :
    first c cs = (p,others) := by
  cases h with
  | token h => exact h.eq
  | blank h => exact if_pos h
  | comment h hcs =>
    subst h hcs
    rfl
  | unclosed h hcs =>
    subst h
    rw [first_quote,(span_no_quote hcs).1,(span_no_quote hcs).2,if_pos rfl]
  | stray h hdigit hname => rw [h.first_eq,if_neg (by simp [hdigit]),if_neg (by simp [hname])]

theorem First.unique {c : Char} {cs others others' : List Char} {p p' : Piece} (h : First c cs p others)
    (h' : First c cs p' others') : p = p' ∧ others = others' :=
  Prod.mk.inj (h.eq.symm.trans h'.eq)

end Piece
end Lox

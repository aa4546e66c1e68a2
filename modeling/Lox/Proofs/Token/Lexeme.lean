import Lox.Proofs.Token.First
import Lox.Proofs.Token.Words

/-! The lexemes of the language, said without the scanner. The first piece of a text that begins with one of them is
the longest one that it begins with. -/
namespace Lox

/-- The lexemes that are always spelt alike, apart from the reserved words. -/
def fixedLexemes : List (List Char × Kind) :=
  [(['('],.leftParen),([')'],.rightParen),(['{'],.leftBrace),(['}'],.rightBrace),([','],.comma),(['.'],.dot),
    (['-'],.minus),(['+'],.plus),([';'],.semicolon),(['*'],.star),(['?'],.question),([':'],.colon),(['/'],.slash),
    (['!'],.bang),(['!','='],.bangEqual),(['='],.equal),(['=','='],.equalEqual),(['<'],.less),(['<','='],.lessEqual),
    (['>'],.greater),(['>','='],.greaterEqual)]

/-- What is a lexeme, and of which kind. -/
inductive Lexeme : Kind → List Char → Prop
  | fixed {kind : Kind} {text : List Char} : (text,kind) ∈ fixedLexemes → Lexeme kind text
  | string {contents : List Char} : '"' ∉ contents →
    Lexeme (.string (String.ofList contents)) ('"' :: (contents ++ ['"']))
  | integer {digits : List Char} : digits ≠ [] → (∀ d ∈ digits, d.isDigit) →
    Lexeme (.number (Piece.numberValue digits)) digits
  | decimal {whole fraction : List Char} : whole ≠ [] → (∀ d ∈ whole, d.isDigit) → fraction ≠ [] →
    (∀ d ∈ fraction, d.isDigit) →
    Lexeme (.number (Piece.numberValue (whole ++ '.' :: fraction))) (whole ++ '.' :: fraction)
  | keyword {word : String} {kind : Kind} : (word,kind) ∈ Kind.keywords → Lexeme kind word.toList
  | identifier {c : Char} {cs : List Char} : Piece.isNameStart c → (∀ d ∈ cs, Piece.isNameRest d) →
    String.ofList (c :: cs) ∉ Kind.keywords.map Prod.fst → Lexeme .identifier (c :: cs)

namespace Piece

/-! ### Characters -/

/-- The characters that fixed lexemes, strings and blanks begin with. -/
def special : List Char :=
  [' ','\r','\t','\n','(',')','{','}',',','.','-','+',';','*','?',':','!','=','<','>','/','"']

theorem plain_of_not_special {c : Char} (h : c ∉ special) : Plain c := by
  simp only [special,List.mem_cons,not_or] at h
  exact {
    blank := by simp [isBlank,h]
    punctuator := by simp [punctuator?,h]
    operator := by simp [operator?,h]
    slash := by simp [h]
    quote := by simp [h] }

/-- A class of characters that has no special one. -/
theorem plain_of {p : Char → Bool} (hp : special.all (!p ·)) {c : Char} (hc : p c) : Plain c :=
  plain_of_not_special fun hmem => by simpa [hc] using List.all_eq_true.mp hp c hmem

theorem plain_digit {c : Char} (h : c.isDigit) : Plain c := plain_of (p := Char.isDigit) (by decide) h

theorem plain_name {c : Char} (h : isNameStart c) : Plain c := plain_of (p := isNameStart) (by decide) h

theorem not_digit_of_name {c : Char} (h : isNameStart c) : c.isDigit = false := by
  delta isNameStart Char.isAlpha Char.isUpper Char.isLower at h
  simp only [Char.isDigit,Bool.or_eq_true,beq_iff_eq] at h ⊢
  rcases h with h | rfl
  · grind
  · rfl

end Piece

/-! ### Tables -/

section Fixed

variable {c : Char} {kind short long : Kind} {text : List Char}

theorem fixed_of_punctuator (h : Piece.punctuator? c = some kind) : ([c],kind) ∈ fixedLexemes := by
  unfold Piece.punctuator? at h
  split at h <;> cases h <;> simp [fixedLexemes]

theorem fixed_of_operator (h : Piece.operator? c = some (short,long)) :
    ([c],short) ∈ fixedLexemes ∧ ([c,'='],long) ∈ fixedLexemes := by
  unfold Piece.operator? at h
  split at h <;> cases h <;> simp [fixedLexemes]

theorem fixed_cases : ∀ entry ∈ fixedLexemes,
    (∃ c, entry.1 = [c] ∧ Piece.punctuator? c = some entry.2) ∨
      (∃ c other, entry.1 = [c] ∧ Piece.operator? c = some (entry.2,other)) ∨
      (∃ c other, entry.1 = [c,'='] ∧ Piece.operator? c = some (other,entry.2)) ∨
      entry.1 = ['/'] ∧ entry.2 = .slash := by
  simp [fixedLexemes,Piece.punctuator?,Piece.operator?]

end Fixed

/-- A text that has the form of a name. -/
def Piece.isWord : List Char → Bool
  | [] => false
  | c :: cs => isNameStart c && cs.all isNameRest

theorem Kind.keywords_words : Kind.keywords.all fun (word,kind) =>
    Piece.isWord word.toList && Kind.ofWord word == kind := by
  decide

variable {c : Char} {cs text others : List Char} {kind : Kind} {word : String}

theorem Kind.ofWord_of_mem (h : (word,kind) ∈ keywords) : Piece.isWord word.toList ∧ ofWord word = kind := by
  simpa using List.all_eq_true.mp keywords_words _ h

theorem Kind.ofWord_of_not_mem (h : word ∉ keywords.map Prod.fst) : ofWord word = .identifier := by
  have hnone : keywords.lookup word = none := List.lookup_eq_none_iff.mpr fun entry hentry =>
    bne_iff_ne.mpr fun heq => h (heq ▸ List.mem_map_of_mem hentry)
  rw [ofWord,hnone]
  rfl

/-- Reserved words and names have one form, and a word that is no reserved one is a name. -/
theorem lexeme_word (h : Piece.isWord text) : Lexeme (Kind.ofWord (String.ofList text)) text := by
  cases hl : Kind.keywords.lookup (String.ofList text) with
  | some kind =>
    obtain ⟨before,behind,heq,-⟩ := List.lookup_eq_some_iff.mp hl
    have hmem : (String.ofList text,kind) ∈ Kind.keywords := by simp [heq]
    have hlexeme := Lexeme.keyword hmem
    rwa [String.toList_ofList,← (Kind.ofWord_of_mem hmem).2] at hlexeme
  | none =>
    cases text with
    | nil => cases h
    | cons c cs =>
      obtain ⟨hc,hcs⟩ := (Bool.and_eq_true _ _).mp h
      rw [Kind.ofWord,hl]
      refine .identifier hc (List.all_eq_true.mp hcs) fun hmem => ?_
      obtain ⟨entry,hentry,heq⟩ := List.mem_map.mp hmem
      simpa [heq] using List.lookup_eq_none_iff.mp hl entry hentry

theorem Lexeme.ne_nil (h : Lexeme kind text) : text ≠ [] := by
  cases h with
  | fixed h =>
    rintro rfl
    simp [fixedLexemes] at h
  | string => exact List.cons_ne_nil _ _
  | integer h => exact h
  | decimal => simp
  | keyword h =>
    intro hnil
    have hword := (Kind.ofWord_of_mem h).1
    rw [hnil] at hword
    cases hword
  | identifier => exact List.cons_ne_nil _ _

/-! ### The first piece -/

theorem isWord_takeWhile (hc : Piece.isNameStart c) (cs : List Char) :
    Piece.isWord (c :: cs.takeWhile Piece.isNameRest) := by
  simp only [Piece.isWord,hc,Bool.true_and,List.all_eq_true]
  exact fun d hd => List.mem_takeWhile_imp hd

theorem lexeme_spanNumber (hc : c.isDigit) (cs : List Char) :
    Lexeme (.number (Piece.numberValue (Piece.spanNumber (c :: cs)).1)) (Piece.spanNumber (c :: cs)).1 := by
  have hdigits (ds : List Char) : ∀ d ∈ ds.takeWhile Char.isDigit, d.isDigit := fun d hd => List.mem_takeWhile_imp hd
  have hwhole : (c :: cs).takeWhile Char.isDigit ≠ [] := by simp [hc]
  unfold Piece.spanNumber
  split
  next d rest _ =>
    split
    next hd => exact .decimal hwhole (hdigits _) (by simp [hd]) (hdigits _)
    next => exact .integer hwhole (hdigits _)
  next => exact .integer hwhole (hdigits _)

/-- Characters of a class at the front of a text are not more than all of them there. -/
theorem length_le_takeWhile {p : Char → Bool} {front : List Char} (hfront : ∀ d ∈ front, p d) (tail : List Char) :
    front.length ≤ ((front ++ tail).takeWhile p).length := by
  rw [List.takeWhile_append_of_pos hfront,List.length_append]
  exact Nat.le_add_right _ _

theorem integer_le_spanNumber {digits : List Char} (h : ∀ d ∈ digits, d.isDigit) (tail : List Char) :
    digits.length ≤ (Piece.spanNumber (digits ++ tail)).1.length := by
  have hwhole := length_le_takeWhile h tail
  unfold Piece.spanNumber
  split
  · split
    · rw [List.length_append]
      exact Nat.le_trans hwhole (Nat.le_add_right _ _)
    · exact hwhole
  · exact hwhole

theorem decimal_le_spanNumber {whole fraction : List Char} (hwhole : ∀ d ∈ whole, d.isDigit) (hne : fraction ≠ [])
    (hfraction : ∀ d ∈ fraction, d.isDigit) (tail : List Char) : (whole ++ '.' :: fraction).length ≤
      (Piece.spanNumber (whole ++ '.' :: fraction ++ tail)).1.length := by
  obtain ⟨d,ds,rfl⟩ := List.exists_cons_of_ne_nil hne
  have hlong := length_le_takeWhile hfraction tail
  have hd := hfraction d List.mem_cons_self
  have htake : (whole ++ '.' :: (d :: ds) ++ tail).takeWhile Char.isDigit = whole := by
    rw [List.append_assoc,List.takeWhile_append_of_pos hwhole]
    simp
  have hdrop : (whole ++ '.' :: (d :: ds) ++ tail).dropWhile Char.isDigit = '.' :: d :: (ds ++ tail) := by
    rw [List.append_assoc,List.dropWhile_append_of_pos hwhole]
    rfl
  unfold Piece.spanNumber
  rw [htake,hdrop]
  simp only [hd,if_true,List.length_append,List.length_cons]
  simpa using hlong

/-- The first piece is a lexeme where it is a token. -/
theorem Piece.Leads.lexeme (h : Leads c cs kind text others) : Lexeme kind text := by
  cases h with
  | punctuator h => exact .fixed (fixed_of_punctuator h)
  | long h hcs => exact .fixed (fixed_of_operator h).2
  | short h hcs => exact .fixed (fixed_of_operator h).1
  | slash h hcs => exact .fixed (by simp [fixedLexemes])
  | string h hcs hquote => exact .string hquote
  | number h hdigit => exact lexeme_spanNumber hdigit cs
  | word h hdigit hname => exact lexeme_word (isWord_takeWhile hname cs)

theorem first_of_word (h : Piece.isWord text) {tail : List Char} (hp : text ++ tail = c :: cs) :
    ∃ kind text' others, Piece.Leads c cs kind text' others ∧ text.length ≤ text'.length ∧
      (text = text' → Kind.ofWord (String.ofList text) = kind) := by
  cases text with
  | nil => cases h
  | cons d ds =>
    obtain ⟨rfl,rfl⟩ := List.cons_eq_cons.mp hp
    obtain ⟨hd,hds⟩ := (Bool.and_eq_true _ _).mp h
    refine ⟨_,_,_,.word (Piece.plain_name hd) (Piece.not_digit_of_name hd) hd,?_,fun heq => ?_⟩
    · exact Nat.succ_le_succ (length_le_takeWhile (List.all_eq_true.mp hds) tail)
    · exact congrArg (fun text => Kind.ofWord (String.ofList text)) heq

theorem first_of_number {tail : List Char} (hc : c.isDigit) (hp : text ++ tail = c :: cs)
    (hlength : text.length ≤ (Piece.spanNumber (text ++ tail)).1.length) :
    ∃ kind text' others, Piece.Leads c cs kind text' others ∧ text.length ≤ text'.length ∧
      (text = text' → Kind.number (Piece.numberValue text) = kind) := by
  rw [hp] at hlength
  exact ⟨_,_,_,.number (Piece.plain_digit hc) hc,hlength,fun heq => congrArg (Kind.number ∘ Piece.numberValue) heq⟩

theorem first_of_fixed (h : (text,kind) ∈ fixedLexemes) {tail : List Char} (hp : text ++ tail = c :: cs)
    (hcomment : ¬ ['/','/'] <+: c :: cs) :
    ∃ kind' text' others, Piece.Leads c cs kind' text' others ∧ text.length ≤ text'.length ∧
      (text = text' → kind = kind') := by
  obtain ⟨d,rfl,hd⟩ | ⟨d,other,rfl,hd⟩ | ⟨d,other,rfl,hd⟩ | ⟨rfl,rfl⟩ := fixed_cases _ h
  · obtain ⟨rfl,rfl⟩ := List.cons_eq_cons.mp hp
    exact ⟨_,_,_,.punctuator hd,Nat.le_refl _,fun _ => rfl⟩
  · obtain ⟨rfl,rfl⟩ := List.cons_eq_cons.mp hp
    by_cases hequal : tail.head? = some '='
    · obtain ⟨rest,rfl⟩ := List.head?_eq_some_iff.mp hequal
      exact ⟨_,_,_,.long hd rfl,by simp,by simp⟩
    · exact ⟨_,_,_,.short hd hequal,Nat.le_refl _,fun _ => rfl⟩
  · obtain ⟨rfl,rfl⟩ := List.cons_eq_cons.mp hp
    exact ⟨_,_,_,.long hd rfl,Nat.le_refl _,fun _ => rfl⟩
  · obtain ⟨rfl,rfl⟩ := List.cons_eq_cons.mp hp
    refine ⟨_,_,_,.slash rfl fun hslash => hcomment ?_,Nat.le_refl _,fun _ => rfl⟩
    obtain ⟨rest,rfl⟩ := List.head?_eq_some_iff.mp hslash
    exact ⟨rest,rfl⟩

theorem mem_of_front {front tail : List Char} (hne : front ≠ []) (h : front ++ tail = c :: cs) : c ∈ front := by
  obtain ⟨d,ds,rfl⟩ := List.exists_cons_of_ne_nil hne
  obtain ⟨rfl,-⟩ := List.cons_eq_cons.mp h
  exact List.mem_cons_self

/-- Where a text begins with a lexeme that opens no comment, its first piece is a token and at least as long. -/
theorem Lexeme.first (h : Lexeme kind text) (hp : text <+: c :: cs) (hcomment : ¬ ['/','/'] <+: c :: cs) :
    ∃ kind' text' others, Piece.Leads c cs kind' text' others ∧ text.length ≤ text'.length ∧
      (text = text' → kind = kind') := by
  obtain ⟨tail,hp⟩ := hp
  cases h with
  | fixed h => exact first_of_fixed h hp hcomment
  | @string contents h =>
    obtain ⟨rfl,rfl⟩ := List.cons_eq_cons.mp hp
    exact ⟨_,_,_,.string rfl (List.append_assoc _ _ _) h,Nat.le_refl _,fun _ => rfl⟩
  | integer hne h =>
    have hc := h c (mem_of_front hne hp)
    exact first_of_number hc hp (integer_le_spanNumber h tail)
  | decimal hne h hne' h' =>
    have hc := h c (mem_of_front hne ((List.append_assoc _ _ _).symm.trans hp))
    exact first_of_number hc hp (decimal_le_spanNumber h hne' h' tail)
  | keyword h =>
    obtain ⟨hword,hkind⟩ := Kind.ofWord_of_mem h
    have hfirst := first_of_word hword hp
    rwa [String.ofList_toList,hkind] at hfirst
  | @identifier d ds hd hds hnot =>
    have hword : Piece.isWord (d :: ds) := (Bool.and_eq_true _ _).mpr ⟨hd,List.all_eq_true.mpr hds⟩
    have hfirst := first_of_word hword hp
    rwa [Kind.ofWord_of_not_mem hnot] at hfirst

end Lox

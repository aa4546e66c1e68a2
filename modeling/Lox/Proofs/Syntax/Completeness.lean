import Lox.Proofs.Syntax.Completeness.Expression

/-! The parser accepts every program of the grammar and gives the program's own tree. Lists beyond the limit do not stop
it, so phrases are followed in the grammar without limits. -/
namespace Lox
namespace Parser

open Unlimited
open Grammar hiding Expression OptionalExpression Parameters VariableDeclaration ExpressionStatement Superclass
  Initializer Statement Block Declarations

variable {n m : Nat} {i j k : Tally} {ts us t : List Token}

/-! ### Clauses -/

theorem expression_consumes_to {e : Expr} (h : Expression .assignment i ts e j) (hn : ts.length ≤ n)
    (ht : upcoming t ∈ [Kind.semicolon,Kind.rightParen]) : Consumes (expression n) i (ts ++ t) e j t := by
  refine (expression_consumes h).nested (expression_ne_nil h) hn ?_
  simp only [List.mem_cons,List.not_mem_nil,or_false] at ht
  rcases ht with ht | ht <;> rw [ht] <;> decide

theorem upcoming_expression_ne {e : Expr} {kind : Kind} (h : Expression .assignment i ts e j)
    (hk : startsExpression kind = false) (t : List Token) : upcoming (ts ++ t) ≠ kind := by
  obtain ⟨first,us,rfl,hs,-⟩ := h.starts
  rintro rfl
  exact absurd hs (by simpa using hk)

theorem expressionUnless_consumes {e : Option Expr} {kind : Kind} (h : OptionalExpression i ts e j)
    (hn : ts.length ≤ n) (hk : kind ∈ [Kind.semicolon,Kind.rightParen]) (ht : upcoming t = kind) :
    Consumes (expressionUnless kind n) i (ts ++ t) e j t := by
  refine peek_reads.step ?_
  cases h with
  | absent =>
    simp only [List.nil_append,show (t.headD (.eof 1)).kind = kind from ht,if_true]
    exact .pure _
  | present h =>
    have hfirst : startsExpression kind = false := by
      simp only [List.mem_cons,List.not_mem_nil,or_false] at hk
      rcases hk with rfl | rfl <;> rfl
    have hne : ((ts ++ t).headD (.eof 1)).kind ≠ kind := upcoming_expression_ne h hfirst t
    simp only [hne,if_false]
    exact (expression_consumes_to h hn (ht ▸ hk)).map some

theorem varDeclaration_consumes {s : Stmt} (h : VariableDeclaration i ts s j) (hn : ts.length ≤ n + 1) :
    ∃ keyword us, ts = keyword :: us ∧ keyword.kind = .kwVar ∧
      ∀ t, Consumes (varDeclaration n) i (us ++ t) s j t := by
  cases h with
  | plain hk hname hsemi =>
    refine ⟨_,_,rfl,hk,fun t => (expect_reads hname _).step ?_⟩
    refine Consumes.bind (a := none) ((take?_reads_none (by simp [hsemi])).step (.pure none)) ?_
    exact (expect_reads hsemi _).step (.pure _)
  | @initialized keyword name equals _ _ _ semicolon hk hname heq he hsemi =>
    refine ⟨_,_,rfl,hk,fun t => ?_⟩
    simp only [List.length_cons,List.length_append] at hn
    simp only [List.cons_append,List.append_assoc,List.nil_append]
    have hvalue := (expression_consumes_to (n := n) (t := semicolon :: t) he (by omega) (by simp [hsemi])).map some
    refine (expect_reads hname _).step (((take?_reads (by simp [heq])).step hvalue).bind ?_)
    exact (expect_reads hsemi _).step (.pure _)

theorem expressionStatement_consumes {s : Stmt} (h : ExpressionStatement i ts s j) (hn : ts.length ≤ n) :
    Consumes (expressionStatement n) i (ts ++ t) s j t := by
  obtain ⟨he,hsemi⟩ := h
  simp only [List.length_append] at hn
  simp only [List.append_assoc,List.cons_append,List.nil_append]
  refine (expression_consumes_to he (by omega) (by simp [hsemi])).bind ?_
  exact (expect_reads hsemi _).step (.pure _)

theorem parameters_consumes {count : Nat} {ts names : List Token} (h : Parameters count i ts names j) :
    ∀ n t, ts.length ≤ n → upcoming t = .rightParen → names ≠ [] →
      Consumes (commaSeparated (expect .identifier .parameterName) .tooManyParameters n count) i (ts ++ t) names j
        t := by
  induction h with
  | none => exact fun _ _ _ _ hne => absurd rfl hne
  | @one count i name hname =>
    intro n t _ ht _
    have hitem : Consumes (limited (expect .identifier .parameterName) .tooManyParameters count) i (name :: t) name
        (i.enter .tooManyParameters count name) t := .limited (expect_reads hname _).consumes
    cases n with
    | zero => exact hitem.bind (.pure _)
    | succ n => exact hitem.bind ((take?_reads_none (by simp [ht])).step (.pure _))
  | @more count i name comma ts others j hname hcomma _ hne ih =>
    intro n t hn ht _
    simp only [List.length_cons] at hn
    obtain ⟨n,rfl⟩ : ∃ n', n = n' + 1 := ⟨n - 1,by omega⟩
    refine (Consumes.limited (expect_reads hname _).consumes).bind ((take?_reads (by simp [hcomma])).step ?_)
    exact (ih n t (by omega) ht hne).bind (.pure _)

theorem parameters_starts {count : Nat} {ts names : List Token} (h : Parameters count i ts names j) :
    (names = [] → ts = [] ∧ i = j) ∧ (names ≠ [] → ∀ t, upcoming (ts ++ t) ≠ .rightParen) := by
  cases h with
  | none => simp
  | one h => simp [h]
  | more h _ _ _ => simp [h]

theorem initializer_consumes {s : Option Stmt} (h : Initializer i ts s j) (hn : ts.length ≤ n) :
    Consumes (forInitializer n) i (ts ++ t) s j t := by
  cases h with
  | absent hk =>
    refine (take?_reads (by simp [hk])).step ?_
    simp only [hk,if_true]
    exact .pure _
  | «variable» h =>
    obtain ⟨keyword,us,rfl,hk,hr⟩ := varDeclaration_consumes (n := n) h (by omega)
    refine (take?_reads (by simp [hk])).step ?_
    simp only [hk]
    exact (hr t).map some
  | expression h =>
    have hfirst : upcoming (ts ++ t) ∉ [Kind.semicolon,Kind.kwVar] := by
      obtain ⟨first,us,rfl,hs⟩ := h.starts
      intro hmem
      simp only [List.cons_append,upcoming_cons,List.mem_cons,List.not_mem_nil,or_false] at hmem
      rcases hmem with hk | hk <;> simp [hk,startsExpression,startsPrimary] at hs
    exact (take?_reads_none hfirst).step ((expressionStatement_consumes h hn).map some)

/-! ### Statements and declarations -/

/-- What the parser of statements inside others does, nested up to `n` deep. -/
def ConsumesStatement (isOpen : Bool) (i : Tally) (ts : List Token) (s : Stmt) (j : Tally) : Prop :=
  ∀ n t, ts.length ≤ n → (isOpen → upcoming t ≠ .kwElse) → Consumes (innerStatement n) i (ts ++ t) s j t

def ConsumesBlock (i : Tally) (ts : List Token) (body : List Stmt) (j : Tally) : Prop :=
  ∀ n m t, ts.length ≤ n + 1 → ts.length ≤ m → ∃ opening us, ts = opening :: us ∧
    opening.kind = .leftBrace ∧ Consumes (block (declaration n) m) i (us ++ t) body j t

def ConsumesFunction (i : Tally) (ts : List Token) (d : FunctionDecl) (j : Tally) : Prop :=
  ∀ kind n m t, ts.length ≤ n + 1 → ts.length ≤ m →
    Consumes (function kind (declaration n) m) i (ts ++ t) d j t

def ConsumesFunctions (i : Tally) (ts : List Token) (ds : List FunctionDecl) (j : Tally) : Prop :=
  ∀ n m m' t, ts.length ≤ n + 1 → ts.length ≤ m → ts.length ≤ m' → upcoming t = .rightBrace →
    Consumes (manyUntil [.rightBrace,.eof] (some <$> function .method (declaration n) m) m') i (ts ++ t)
      ds j t

def ConsumesDeclaration (i : Tally) (ts : List Token) (s : Stmt) (j : Tally) : Prop :=
  ∀ n t, ts.length ≤ n → upcoming t ≠ .kwElse → Consumes (declaration n) i (ts ++ t) (some s) j t

/-- The declarations of a block end at its brace, those of a program at the end mark. -/
def ConsumesDeclarations (i : Tally) (ts : List Token) (ss : List Stmt) (j : Tally) : Prop :=
  ∀ closing n m t, closing ⊆ [.rightBrace,.eof] → ts.length ≤ n → ts.length ≤ m →
    upcoming t ∈ closing → Consumes (manyUntil closing (declaration n) m) i (ts ++ t) ss j t

theorem recovering_consumes {p : Parser Stmt} {s : Stmt} (h : Consumes p i ts s j t) :
    Consumes (recovering p) i ts (some s) j t := by
  intro events
  obtain ⟨events',h'⟩ := h events
  exact ⟨events',by simp only [recovering,h']⟩

theorem recovering_reads {i j : Nat} {p : Parser Stmt} {s : Stmt} (h : Reads p i ts s j t) :
    Reads (recovering p) i ts (some s) j t :=
  fun errors => recovering_consumes (i := ⟨i,errors⟩) (j := ⟨j,errors⟩) (h errors)

theorem manyUntil_stops {i : Nat} {α : Type} {item : Parser (Option α)} {closing : List Kind}
    (h : upcoming t ∈ closing) (m : Nat) : Reads (manyUntil closing item m) i t [] i t := by
  cases m with
  | zero => exact .pure _
  | succ m =>
    refine peek_reads.bind ?_
    simp only [show (t.headD (.eof 1)).kind ∈ closing from h,if_true]
    exact .pure _

theorem manyUntil_more {α : Type} {item : Parser (Option α)} {closing : List Kind} {x : α} {xs : List α}
    (hts : upcoming ts ∉ closing) (h : Consumes item i ts (some x) j us)
    (ho : Consumes (manyUntil closing item m) j us xs k t) :
    Consumes (manyUntil closing item (m + 1)) i ts (x :: xs) k t := by
  refine peek_reads.step ?_
  simp only [show (ts.headD (.eof 1)).kind ∉ closing from hts,if_false]
  exact h.bind (ho.bind (.pure _))

namespace ConsumesStatement

variable {vs ws : List Token} {keyword opening closing : Token} {condition : Expr} {body : Stmt}
  {isOpen : Bool}

/-- A statement with a first token of its own is read by the rule that this token selects. -/
theorem of_keyword {s : Stmt}
    (hk : keyword.kind ∈ [Kind.kwFor,.kwIf,.kwWhile,.kwReturn,.leftBrace,.kwPrint])
    (h : ∀ n t, ts.length ≤ n → (isOpen → upcoming t ≠ .kwElse) →
      Consumes (match keyword.kind with
        | .kwFor => forStatement keyword (innerStatement n) (n + 1)
        | .kwIf => ifStatement (innerStatement n) (n + 1)
        | .kwWhile => whileStatement (innerStatement n) (n + 1)
        | .kwReturn => returnStatement keyword (n + 1)
        | .leftBrace => .block <$> block (declaration n) (n + 1)
        | _ => printStatement (n + 1)) i (ts ++ t) s j t) :
    ConsumesStatement isOpen i (keyword :: ts) s j := by
  intro n t hn ht
  cases n with
  | zero => simp at hn
  | succ n => exact (take?_reads hk).step (h n t (by simpa using hn) ht)

theorem expression {s : Stmt} (h : ExpressionStatement i ts s j) : ConsumesStatement false i ts s j := by
  intro n t hn _
  obtain ⟨first,us,rfl,hs⟩ := h.starts
  cases n with
  | zero => simp at hn
  | succ n =>
    refine (take?_reads_none ?_).step (expressionStatement_consumes h hn)
    intro hmem
    simp only [List.cons_append,upcoming_cons,List.mem_cons,List.not_mem_nil,or_false] at hmem
    rcases hmem with hk | hk | hk | hk | hk | hk <;> simp [hk,startsExpression,startsPrimary] at hs

theorem print {e : Expr} (hk : keyword.kind = .kwPrint) (h : Expression .assignment i ts e j)
    (hclose : closing.kind = .semicolon) :
    ConsumesStatement false i (keyword :: (ts ++ [closing])) (.print e) j := by
  refine of_keyword (by simp [hk]) fun n t hn _ => ?_
  simp only [List.length_append,List.length_singleton] at hn
  simp only [hk,List.append_assoc,List.cons_append,List.nil_append]
  refine (expression_consumes_to h (by omega) (by simp [hclose])).bind ?_
  exact (expect_reads hclose _).step (.pure _)

theorem returning {value : Option Expr} (hk : keyword.kind = .kwReturn)
    (h : OptionalExpression i ts value j) (hclose : closing.kind = .semicolon) :
    ConsumesStatement false i (keyword :: (ts ++ [closing])) (.return keyword value) j := by
  refine of_keyword (by simp [hk]) fun n t hn _ => ?_
  simp only [List.length_append,List.length_singleton] at hn
  simp only [hk,List.append_assoc,List.cons_append,List.nil_append]
  refine (expressionUnless_consumes h (by omega) (by simp) (upcoming_eq hclose _)).bind ?_
  exact (expect_reads hclose _).step (.pure _)

theorem block {ss : List Stmt} (h : ConsumesBlock i ts ss j) : ConsumesStatement false i ts (.block ss) j := by
  intro n t hn _
  cases n with
  | zero =>
    obtain ⟨opening,us,rfl,-⟩ := h ts.length ts.length t (Nat.le_succ _) (Nat.le_refl _)
    simp at hn
  | succ n =>
    obtain ⟨opening,us,rfl,hopen,hr⟩ := h n (n + 1) t hn hn
    refine (take?_reads (by simp [hopen])).step ?_
    simp only [hopen]
    exact hr.map Stmt.block

theorem ifThen {thenBranch : Stmt} (hk : keyword.kind = .kwIf) (hopen : opening.kind = .leftParen)
    (hc : Expression .assignment i ts condition j) (hclose : closing.kind = .rightParen)
    (h : ConsumesStatement isOpen j us thenBranch k) :
    ConsumesStatement true i (keyword :: opening :: (ts ++ closing :: us))
      (.branch condition thenBranch none) k := by
  refine of_keyword (by simp [hk]) fun n t hn ht => ?_
  simp only [List.length_append,List.length_cons] at hn
  simp only [hk,List.append_assoc,List.cons_append]
  refine (expect_reads hopen _).step ?_
  refine (expression_consumes_to hc (by omega) (by simp [hclose])).bind ?_
  refine (expect_reads hclose _).step ((h n t (by omega) (fun _ => ht rfl)).bind ?_)
  exact (take?_reads_none (by simpa using ht rfl)).step (.pure _)

theorem ifElse {thenBranch elseBranch : Stmt} {other : Token} {l : Tally} (hk : keyword.kind = .kwIf)
    (hopen : opening.kind = .leftParen) (hc : Expression .assignment i ts condition j)
    (hclose : closing.kind = .rightParen) (h : ConsumesStatement false j us thenBranch k)
    (hother : other.kind = .kwElse) (he : ConsumesStatement isOpen k vs elseBranch l) :
    ConsumesStatement isOpen i (keyword :: opening :: (ts ++ closing :: (us ++ other :: vs)))
      (.branch condition thenBranch (some elseBranch)) l := by
  refine of_keyword (by simp [hk]) fun n t hn ht => ?_
  simp only [List.length_append,List.length_cons] at hn
  simp only [hk,List.append_assoc,List.cons_append]
  refine (expect_reads hopen _).step ?_
  refine (expression_consumes_to hc (by omega) (by simp [hclose])).bind ?_
  refine (expect_reads hclose _).step ((h n _ (by omega) (by simp)).bind ?_)
  exact (take?_reads (by simp [hother])).step ((he n t (by omega) ht).bind (.pure _))

theorem whileLoop (hk : keyword.kind = .kwWhile) (hopen : opening.kind = .leftParen)
    (hc : Expression .assignment i ts condition j) (hclose : closing.kind = .rightParen)
    (h : ConsumesStatement isOpen j us body k) :
    ConsumesStatement isOpen i (keyword :: opening :: (ts ++ closing :: us)) (.loop condition body) k := by
  refine of_keyword (by simp [hk]) fun n t hn ht => ?_
  simp only [List.length_append,List.length_cons] at hn
  simp only [hk,List.append_assoc,List.cons_append]
  refine (expect_reads hopen _).step ?_
  refine (expression_consumes_to hc (by omega) (by simp [hclose])).bind ?_
  exact (expect_reads hclose _).step ((h n t (by omega) ht).bind (.pure _))

theorem forLoop {initializer : Option Stmt} {test increment : Option Expr} {semicolon : Token} {l m : Tally}
    (hk : keyword.kind = .kwFor) (hopen : opening.kind = .leftParen)
    (hi : Initializer i ts initializer j) (hc : OptionalExpression j us test k)
    (hsemi : semicolon.kind = .semicolon) (hinc : OptionalExpression k vs increment l)
    (hclose : closing.kind = .rightParen) (h : ConsumesStatement isOpen l ws body m) :
    ConsumesStatement isOpen i (keyword :: opening :: (ts ++ (us ++ semicolon :: (vs ++ closing :: ws))))
      (desugared initializer test increment body) m := by
  refine of_keyword (by simp [hk]) fun n t hn ht => ?_
  simp only [List.length_append,List.length_cons] at hn
  simp only [hk,List.append_assoc,List.cons_append,desugared_eq_forLoop]
  refine (expect_reads hopen _).step ((initializer_consumes hi (by omega)).bind ?_)
  refine (expressionUnless_consumes hc (by omega) (by simp) (upcoming_eq hsemi _)).bind
    ((expect_reads hsemi _).step ?_)
  refine (expressionUnless_consumes hinc (by omega) (by simp) (upcoming_eq hclose _)).bind
    ((expect_reads hclose _).step ?_)
  exact (h n t (by omega) ht).bind ((note_reads _).step (.pure _))

end ConsumesStatement

theorem ConsumesBlock.mk {opening closing : Token} {body : List Stmt} (hopen : opening.kind = .leftBrace)
    (h : ConsumesDeclarations i ts body j) (hclose : closing.kind = .rightBrace) :
    ConsumesBlock i (opening :: (ts ++ [closing])) body j := by
  intro n m t hn hm
  refine ⟨opening,_,rfl,hopen,?_⟩
  simp only [List.length_append,List.length_cons] at hn hm
  simp only [List.append_assoc,List.cons_append,List.nil_append]
  refine (h _ n m _ (List.Subset.refl _) (by omega) (by omega) (by simp [hclose])).bind ?_
  exact (expect_reads hclose _).step (.pure _)

theorem ConsumesFunction.mk {name opening closing : Token} {parameters : List Token} {body : List Stmt}
    (hname : name.kind = .identifier) (hopen : opening.kind = .leftParen)
    (hp : Parameters 0 i ts parameters j)
    (hclose : closing.kind = .rightParen) (h : ConsumesBlock j us body k) :
    ConsumesFunction i (name :: opening :: (ts ++ closing :: us)) ⟨name,parameters,body⟩ k := by
  intro kind n m t hn hm
  simp only [List.length_append,List.length_cons] at hn hm
  simp only [List.append_assoc,List.cons_append]
  obtain ⟨brace,vs,rfl,hbrace,hr⟩ := h n m t (by omega) (by omega)
  simp only [List.cons_append]
  refine (expect_reads hname _).step ((expect_reads hopen _).step ?_)
  obtain ⟨hnil,hstart⟩ := parameters_starts hp
  refine (listed_consumes (t := closing :: brace :: (vs ++ t)) hnil hstart (fun hne => ?_) hclose).bind ?_
  · exact parameters_consumes hp m _ (by omega) hclose hne
  · exact (expect_reads hclose _).step ((expect_reads hbrace _).step (hr.bind (.pure _)))

theorem ConsumesFunctions.more {d : FunctionDecl} {ds : List FunctionDecl} (hf : Unlimited.Function i ts d j)
    (h : ConsumesFunction i ts d j) (ho : ConsumesFunctions j us ds k) :
    ConsumesFunctions i (ts ++ us) (d :: ds) k := by
  intro n m m' t hn hm hm' ht
  obtain ⟨first,vs,rfl,hfirst⟩ : ∃ first vs, ts = first :: vs ∧ first.kind = .identifier := by
    cases hf with
    | mk hname _ _ _ _ => exact ⟨_,_,rfl,hname⟩
  simp only [List.length_append,List.length_cons] at hn hm hm'
  obtain ⟨m',rfl⟩ : ∃ m'', m' = m'' + 1 := ⟨m' - 1,by omega⟩
  rw [List.append_assoc]
  refine manyUntil_more (by simp [hfirst]) ((h _ n m _ (by simp; omega) (by simp; omega)).map some) ?_
  exact ho n m m' t (by omega) (by omega) (by omega) ht

namespace ConsumesDeclaration

variable {s : Stmt}

/-- A declaration with a first token of its own is read by the rule that this token selects. -/
theorem of_keyword {keyword : Token} (hk : keyword.kind ∈ [Kind.kwClass,.kwFun,.kwVar])
    (h : ∀ n t, ts.length ≤ n → Consumes (match keyword.kind with
      | .kwClass => classDeclaration (declaration n) (n + 1)
      | .kwFun => .function <$> Parser.function .function (declaration n) (n + 1)
      | _ => varDeclaration (n + 1)) i (ts ++ t) s j t) :
    ConsumesDeclaration i (keyword :: ts) s j := by
  intro n t hn _
  cases n with
  | zero => simp at hn
  | succ n =>
    refine peek_reads.step ((note_reads _).step (recovering_consumes ?_))
    exact (take?_reads hk).step (h n t (by simpa using hn))

theorem classDeclaration {keyword name opening closing : Token} {superclass : Option Expr}
    {methods : List FunctionDecl} (hk : keyword.kind = .kwClass) (hname : name.kind = .identifier)
    (hs : Superclass i ts superclass j) (hopen : opening.kind = .leftBrace)
    (h : ConsumesFunctions j us methods k) (hclose : closing.kind = .rightBrace) :
    ConsumesDeclaration i (keyword :: name :: (ts ++ opening :: (us ++ [closing])))
      (.class name superclass methods) k := by
  refine of_keyword (by simp [hk]) fun n t hn => ?_
  simp only [List.length_append,List.length_cons] at hn
  simp only [hk,List.append_assoc,List.cons_append,List.nil_append]
  refine (expect_reads hname _).step (Consumes.bind (a := superclass) (y := j)
    (t := opening :: (us ++ closing :: t)) ?_ ?_)
  · cases hs with
    | absent => exact (take?_reads_none (by simp [hopen])).step (.pure _)
    | present hless hparent =>
      refine (take?_reads (by simp [hless])).step ((expect_reads hparent _).step ?_)
      exact freshId_consumes.bind (.pure _)
  · refine (expect_reads hopen _).step (Consumes.bind
      (h n _ _ _ (by omega) (by omega) (by omega) (upcoming_eq hclose _)) ?_)
    exact (expect_reads hclose _).step ((note_reads _).step (.pure _))

theorem function {keyword : Token} {d : FunctionDecl} (hk : keyword.kind = .kwFun)
    (h : ConsumesFunction i ts d j) : ConsumesDeclaration i (keyword :: ts) (.function d) j := by
  refine of_keyword (by simp [hk]) fun n t hn => ?_
  simp only [hk]
  exact (h .function n (n + 1) t (by omega) (by omega)).map Stmt.function

theorem identifier (h : VariableDeclaration i ts s j) : ConsumesDeclaration i ts s j := by
  obtain ⟨keyword,us,rfl,hk,-⟩ := varDeclaration_consumes h (Nat.le_succ _)
  refine of_keyword (by simp [hk]) fun n t hn => ?_
  obtain ⟨_,_,heq,-,hr⟩ := varDeclaration_consumes (n := n + 1) h (by simp; omega)
  cases heq
  simp only [hk]
  exact hr t

theorem statement {isOpen : Bool} (hs : Statement isOpen i ts s j) (h : ConsumesStatement isOpen i ts s j) :
    ConsumesDeclaration i ts s j := by
  intro n t hn ht
  obtain ⟨first,us,rfl,hfirst⟩ := hs.starts
  cases n with
  | zero => simp at hn
  | succ n =>
    refine peek_reads.step ((note_reads _).step (recovering_consumes ?_))
    refine (take?_reads_none ?_).step (h (n + 1) t hn (fun _ => ht))
    intro hmem
    simp only [List.cons_append,upcoming_cons,List.mem_cons,List.not_mem_nil,or_false] at hmem
    rcases hmem with hk | hk | hk <;>
      simp [hk,opensStatement,startsExpression,startsPrimary] at hfirst

end ConsumesDeclaration

theorem ConsumesDeclarations.more {s : Stmt} {ss : List Stmt} (hd : Unlimited.Declaration i ts s j)
    (hds : Declarations j us ss k) (h : ConsumesDeclaration i ts s j) (ho : ConsumesDeclarations j us ss k) :
    ConsumesDeclarations i (ts ++ us) (s :: ss) k := by
  intro closing n m t hclosing hn hm ht
  have hend {kind : Kind} (hmem : kind ∈ closing) : kind ∈ [Kind.rightBrace,.eof,.kwElse] := by
    have hmem' := hclosing hmem
    simp only [List.mem_cons,List.not_mem_nil,or_false] at hmem'
    rcases hmem' with rfl | rfl <;> simp
  obtain ⟨first,vs,rfl,hfirst⟩ := hd.starts
  simp only [List.length_append,List.length_cons] at hn hm
  obtain ⟨m,rfl⟩ : ∃ m', m = m' + 1 := ⟨m - 1,by omega⟩
  have hnext : upcoming (us ++ t) ≠ .kwElse := by
    cases hds with
    | none =>
      intro he
      have hmem := hclosing ht
      rw [show upcoming t = .kwElse from he] at hmem
      simp at hmem
    | more hd _ =>
      obtain ⟨second,ws,rfl,hsecond⟩ := hd.starts
      intro he
      simp only [List.cons_append,upcoming_cons] at he
      rw [he] at hsecond
      exact absurd hsecond (by decide)
  rw [List.append_assoc]
  refine manyUntil_more (fun hmem => ?_) (h n _ (by simp; omega) hnext)
    (ho closing n m t hclosing (by omega) (by omega) ht)
  exact Bool.eq_false_iff.mp (not_opensDeclaration (hend hmem)) hfirst

mutual

theorem statement_consumes {isOpen : Bool} {i j : Tally} {ts : List Token} {s : Stmt} :
    Statement isOpen i ts s j → ConsumesStatement isOpen i ts s j
  | .expression h => .expression h
  | .print hk h hclose => .print hk h hclose
  | .return hk h hclose => .returning hk h hclose
  | .block h => .block (block_consumes h)
  | .ifThen hk hopen hc hclose h => .ifThen hk hopen hc hclose (statement_consumes h)
  | .ifElse hk hopen hc hclose h hother he =>
    .ifElse hk hopen hc hclose (statement_consumes h) hother (statement_consumes he)
  | .while hk hopen hc hclose h => .whileLoop hk hopen hc hclose (statement_consumes h)
  | .for hk hopen hi hc hsemi hinc hclose h =>
    .forLoop hk hopen hi hc hsemi hinc hclose (statement_consumes h)

theorem block_consumes {i j : Tally} {ts : List Token} {ss : List Stmt} :
    Block i ts ss j → ConsumesBlock i ts ss j
  | .mk hopen h hclose => .mk hopen (declarations_consumes h) hclose

theorem function_consumes {i j : Tally} {ts : List Token} {d : FunctionDecl} :
    Unlimited.Function i ts d j → ConsumesFunction i ts d j
  | .mk hname hopen hp hclose h => .mk hname hopen hp hclose (block_consumes h)

theorem functions_consumes {i j : Tally} {ts : List Token} {ds : List FunctionDecl} :
    Functions i ts ds j → ConsumesFunctions i ts ds j
  | .none => fun _ _ m' _ _ _ _ ht => (manyUntil_stops (by simp [ht]) m').consumes
  | .more h ho => .more h (function_consumes h) (functions_consumes ho)

theorem declaration_consumes {i j : Tally} {ts : List Token} {s : Stmt} :
    Unlimited.Declaration i ts s j → ConsumesDeclaration i ts s j
  | .class hk hname hs hopen h hclose => .classDeclaration hk hname hs hopen (functions_consumes h) hclose
  | .function hk h => .function hk (function_consumes h)
  | .variable h => .identifier h
  | .statement h => .statement h (statement_consumes h)

theorem declarations_consumes {i j : Tally} {ts : List Token} {ss : List Stmt} :
    Declarations i ts ss j → ConsumesDeclarations i ts ss j
  | .none => fun _ _ m _ _ _ _ ht => (manyUntil_stops ht m).consumes
  | .more h ho => .more h ho (declaration_consumes h) (declarations_consumes ho)

end

/-! ### Within the limits -/

def ReadsDeclarations (i : Nat) (ts : List Token) (ss : List Stmt) (j : Nat) : Prop :=
  ∀ closing n m t, closing ⊆ [.rightBrace,.eof] → ts.length ≤ n → ts.length ≤ m →
    upcoming t ∈ closing → Reads (manyUntil closing (declaration n) m) i (ts ++ t) ss j t

/-- Lists within the limit lead to no error. -/
theorem declarations_reads {i j : Nat} {ts : List Token} {ss : List Stmt} (h : Grammar.Declarations i ts ss j) :
    ReadsDeclarations i ts ss j :=
  fun closing n m t hclosing hn hm ht errors =>
    declarations_consumes (h.unlimited errors) closing n m t hclosing hn hm ht

end Parser

open Grammar

/-- A program in front of the end mark is parsed as written: into its own tree, with the identities
numbered in the order of the grammar. So a token list has at most one tree. -/
theorem parse_complete {i j : Nat} {ts : List Token} {program : List Stmt} {mark : Token}
    (h : Program i ts program j) (hmark : mark.kind = .eof) :
    (parse (ts ++ [mark]) ⟨i⟩).result = .ok program ∧ (parse (ts ++ [mark]) ⟨i⟩).ids = ⟨j⟩ ∧
      ∀ other k, Program i ts other k → other = program ∧ k = j := by
  have hparse {p k} (hp : Program i ts p k) :
      (parse (ts ++ [mark]) ⟨i⟩).result = .ok p ∧ (parse (ts ++ [mark]) ⟨i⟩).ids = ⟨k⟩ := by
    have hr := Parser.declarations_reads hp [.eof] ((ts ++ [mark]).length + 1)
      ((ts ++ [mark]).length + 1) [mark] (by simp) (by simp; omega) (by simp; omega)
      (by simp [Parser.upcoming,hmark])
    obtain ⟨events,he⟩ := hr [] [.parsing,.parserCreated (ts ++ [mark]).length]
    simp only [parse,he,Parsed.ofReader,Parsed.result]
    exact ⟨rfl,trivial⟩
  refine ⟨(hparse h).1,(hparse h).2,fun other k ho => ?_⟩
  have hresult := (hparse h).1.symm.trans (hparse ho).1
  have hids := (hparse h).2.symm.trans (hparse ho).2
  exact ⟨(Except.ok.inj hresult).symm,(ExprIds.mk.inj hids).symm⟩

/-- `if (a) if (b) c; else d;`, where the second `if` has the `else`. -/
theorem parse_complete_nested_branches :
    let name (text : String) : Token := ⟨.identifier,text,1⟩
    let mark (kind : Kind) : Token := ⟨kind,kind.name,1⟩
    let read (i : Nat) (text : String) : Expr := .variable (.numbered i) (name text)
    (parse ([mark .kwIf,mark .leftParen,name "a",mark .rightParen,mark .kwIf,mark .leftParen,name "b",
        mark .rightParen,name "c",mark .semicolon,mark .kwElse,name "d",mark .semicolon] ++ [.eof 1])
        ⟨0⟩).result =
      .ok [.branch (read 0 "a") (.branch (read 1 "b") (.expression (read 2 "c"))
        (some (.expression (read 3 "d")))) none] := by
  intro name mark read
  have hname (i : Nat) (text : String) : Expression .assignment i [name text] (read i text) (i + 1) :=
    .of_primary (.variable rfl)
  have hstatement (i : Nat) (text : String) :
      Statement false i [name text,mark .semicolon] (.expression (read i text)) (i + 1) :=
    .expression (.mk (hname i text) rfl)
  have hinner : Statement false 1 [mark .kwIf,mark .leftParen,name "b",mark .rightParen,name "c",
      mark .semicolon,mark .kwElse,name "d",mark .semicolon]
      (.branch (read 1 "b") (.expression (read 2 "c")) (some (.expression (read 3 "d")))) 4 :=
    .ifElse rfl rfl (hname 1 "b") rfl (hstatement 2 "c") rfl (hstatement 3 "d")
  have h : Program 0 [mark .kwIf,mark .leftParen,name "a",mark .rightParen,mark .kwIf,mark .leftParen,
      name "b",mark .rightParen,name "c",mark .semicolon,mark .kwElse,name "d",mark .semicolon]
      [.branch (read 0 "a") (.branch (read 1 "b") (.expression (read 2 "c"))
        (some (.expression (read 3 "d")))) none] 4 :=
    .more (.statement (.ifThen rfl rfl (hname 0 "a") rfl hinner)) .none
  exact (parse_complete h rfl).1

end Lox

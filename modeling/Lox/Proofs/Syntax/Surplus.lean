import Lox.Proofs.Syntax.Completeness

/-! Lists beyond the limit. They end no rule: a program with such lists is parsed into its own tree, and each entry
beyond the limit is one error. -/
namespace Lox

/-! ### Entries beyond the limit -/

mutual

/-- How many entries of argument lists are beyond the limit. -/
def Expr.surplus : Expr → Nat
  | .literal _ | .variable _ _ | .this _ _ | .super _ _ _ => 0
  | .grouping e | .unary _ e | .assign _ _ e | .get e _ => e.surplus
  | .binary left _ right | .logical left _ right => left.surplus + right.surplus
  | .ternary condition ifTrue ifFalse => condition.surplus + (ifTrue.surplus + ifFalse.surplus)
  | .call callee _ arguments => callee.surplus + (Expr.listSurplus arguments + (arguments.length - maxArguments))
  | .set object _ value => object.surplus + value.surplus

def Expr.listSurplus : List Expr → Nat
  | [] => 0
  | e :: es => e.surplus + Expr.listSurplus es

end

def Expr.optionSurplus : Option Expr → Nat
  | none => 0
  | some e => e.surplus

namespace Stmt

mutual

/-- How many entries of argument and parameter lists are beyond the limit. -/
def surplus : Stmt → Nat
  | .expression e | .print e => e.surplus
  | .var _ value | .return _ value => Expr.optionSurplus value
  | .block body => listSurplus body
  | .branch condition thenBranch elseBranch => condition.surplus + (thenBranch.surplus + optionSurplus elseBranch)
  | .loop condition body => condition.surplus + body.surplus
  | .function d => functionSurplus d
  | .class _ superclass methods => Expr.optionSurplus superclass + functionsSurplus methods

def optionSurplus : Option Stmt → Nat
  | none => 0
  | some s => s.surplus

def listSurplus : List Stmt → Nat
  | [] => 0
  | s :: ss => s.surplus + listSurplus ss

def functionSurplus : FunctionDecl → Nat
  | ⟨_,parameters,body⟩ => (parameters.length - maxArguments) + listSurplus body

def functionsSurplus : List FunctionDecl → Nat
  | [] => 0
  | d :: ds => functionSurplus d + functionsSurplus ds

end

theorem functionSurplus_eq (d : FunctionDecl) :
    functionSurplus d = (d.parameters.length - maxArguments) + listSurplus d.body := by
  cases d
  rfl

end Stmt

theorem Grammar.Precedence.node_surplus {l : Precedence} (left right : Expr) (operator : Token) :
    (l.node left operator right).surplus = left.surplus + right.surplus := by
  cases l <;> simp only [node,Expr.surplus]

theorem Grammar.desugared_surplus (initializer : Option Stmt) (condition increment : Option Expr) (body : Stmt) :
    (desugared initializer condition increment body).surplus = Stmt.optionSurplus initializer +
      (Expr.optionSurplus condition + (Expr.optionSurplus increment + body.surplus)) := by
  cases initializer <;> cases condition <;> cases increment <;>
    simp only [desugared,stepped,Stmt.surplus,Stmt.listSurplus,Stmt.optionSurplus,Expr.optionSurplus,Expr.surplus] <;>
    omega

/-! ### Errors -/

/-- An entry of a list is beyond the limit. -/
def Error.IsLimit (e : Error) : Prop :=
  ∃ fault found, fault ∈ [SyntaxFault.tooManyArguments,.tooManyParameters] ∧ e = .syntactic fault found

/-- Between two tallies there are `n` errors more, all of them for entries beyond the limit. -/
def Tally.Exceeds (n : Nat) (i j : Tally) : Prop :=
  ∃ errors, j.errors = errors ++ i.errors ∧ errors.length = n ∧ ∀ e ∈ errors, e.IsLimit

namespace Tally.Exceeds

variable {i j k : Tally} {n m : Nat}

theorem none : Exceeds 0 i i := ⟨[],rfl,rfl,by simp⟩

theorem trans (h : Exceeds n i j) (ho : Exceeds m j k) : Exceeds (n + m) i k := by
  obtain ⟨first,hfirst,rfl,hlimit⟩ := h
  obtain ⟨second,hsecond,rfl,hlimit'⟩ := ho
  refine ⟨second ++ first,by rw [hsecond,hfirst,List.append_assoc],?_,List.forall_mem_append.mpr ⟨hlimit',hlimit⟩⟩
  rw [List.length_append,Nat.add_comm]

theorem enter {fault : SyntaxFault} (hfault : fault ∈ [SyntaxFault.tooManyArguments,.tooManyParameters]) (count : Nat)
    (first : Token) :
    Exceeds ((count + 1 - maxArguments) - (count - maxArguments)) i (i.enter fault count first) := by
  by_cases hcount : maxArguments ≤ count
  · rw [enter_beyond hcount]
    refine ⟨[.syntactic fault first],rfl,by simp only [List.length_singleton]; omega,fun e he => ?_⟩
    exact ⟨fault,first,hfault,List.mem_singleton.mp he⟩
  · rw [enter_within (Nat.not_le.mp hcount)]
    exact ⟨[],rfl,by simp only [List.length_nil]; omega,by simp⟩

theorem of_eq (h : Exceeds n i j) (hn : n = m) : Exceeds m i j := hn ▸ h

end Tally.Exceeds

namespace Unlimited

open Tally (Exceeds)
open Grammar (Precedence)

mutual

/-- The errors of a phrase are as many as the entries beyond the limit in all of its lists. -/
theorem Expression.exceeds {l : Precedence} {i j : Tally} {ts : List Token} {e : Expr} :
    Expression l i ts e j → Exceeds e.surplus i j
  | .operand _ h => h.exceeds
  | .joined h _ hr => (h.exceeds.trans hr.exceeds).of_eq (Precedence.node_surplus _ _ _).symm
  | .assign _ _ h => h.exceeds
  | .set ho _ _ _ hv => ho.exceeds.trans hv.exceeds
  | .ternary hc _ ha _ hb => hc.exceeds.trans (ha.exceeds.trans hb.exceeds)
  | .unary _ h => h.exceeds
  | .call h _ hargs _ => h.exceeds.trans (hargs.exceeds.of_eq (by simp))
  | .get h _ _ => h.exceeds
  | .literal _ | .variable _ | .this _ | .super _ _ _ => .none
  | .group _ h _ => h.exceeds

theorem Arguments.exceeds {count : Nat} {i j : Tally} {ts : List Token} {es : List Expr} :
    Arguments count i ts es j →
      Exceeds (Expr.listSurplus es + ((count + es.length - maxArguments) - (count - maxArguments))) i j
  | .none => Exceeds.none.of_eq (by simp [Expr.listSurplus])
  | .one h => ((Exceeds.enter (by simp) _ _).trans h.exceeds).of_eq (by simp [Expr.listSurplus]; omega)
  | .more h _ ho _ => ((Exceeds.enter (by simp) _ _).trans (h.exceeds.trans ho.exceeds)).of_eq
      (by simp only [Expr.listSurplus,List.length_cons]; omega)

end

theorem OptionalExpression.exceeds {i j : Tally} {ts : List Token} {e : Option Expr} :
    OptionalExpression i ts e j → Exceeds (Expr.optionSurplus e) i j
  | .absent => .none
  | .present h => h.exceeds

theorem Parameters.exceeds {count : Nat} {i j : Tally} {ts names : List Token} (h : Parameters count i ts names j) :
    Exceeds ((count + names.length - maxArguments) - (count - maxArguments)) i j := by
  induction h with
  | none => exact Exceeds.none.of_eq (by simp)
  | one _ => exact .enter (by simp) _ _
  | more _ _ _ _ ih =>
    exact ((Exceeds.enter (by simp) _ _).trans ih).of_eq (by simp only [List.length_cons]; omega)

theorem VariableDeclaration.exceeds {i j : Tally} {ts : List Token} {s : Stmt} :
    VariableDeclaration i ts s j → Exceeds s.surplus i j
  | .plain _ _ _ => .none
  | .initialized _ _ _ h _ => h.exceeds

theorem Superclass.exceeds {i j : Tally} {ts : List Token} {e : Option Expr} :
    Superclass i ts e j → Exceeds (Expr.optionSurplus e) i j
  | .absent | .present _ _ => .none

theorem ExpressionStatement.exceeds {i j : Tally} {ts : List Token} {s : Stmt} :
    ExpressionStatement i ts s j → Exceeds s.surplus i j
  | .mk h _ => h.exceeds

theorem Initializer.exceeds {i j : Tally} {ts : List Token} {s : Option Stmt} :
    Initializer i ts s j → Exceeds (Stmt.optionSurplus s) i j
  | .absent _ => .none
  | .variable h => h.exceeds
  | .expression h => h.exceeds

mutual

theorem Statement.exceeds {isOpen : Bool} {i j : Tally} {ts : List Token} {s : Stmt} :
    Statement isOpen i ts s j → Exceeds s.surplus i j
  | .expression h => h.exceeds
  | .print _ h _ => h.exceeds
  | .return _ h _ => h.exceeds
  | .block h => h.exceeds
  | .ifThen _ _ hc _ h => hc.exceeds.trans h.exceeds
  | .ifElse _ _ hc _ h _ he => hc.exceeds.trans (h.exceeds.trans he.exceeds)
  | .while _ _ hc _ h => hc.exceeds.trans h.exceeds
  | .for _ _ hi hc _ hinc _ h =>
    (hi.exceeds.trans (hc.exceeds.trans (hinc.exceeds.trans h.exceeds))).of_eq (Grammar.desugared_surplus _ _ _ _).symm

theorem Block.exceeds {i j : Tally} {ts : List Token} {ss : List Stmt} :
    Block i ts ss j → Exceeds (Stmt.listSurplus ss) i j
  | .mk _ h _ => h.exceeds

theorem Function.exceeds {i j : Tally} {ts : List Token} {d : FunctionDecl} :
    Function i ts d j → Exceeds (Stmt.functionSurplus d) i j
  | .mk _ _ hp _ h => by
    have hlist := hp.exceeds
    rw [Nat.zero_add,Nat.zero_sub,Nat.sub_zero] at hlist
    exact (hlist.trans h.exceeds).of_eq (Stmt.functionSurplus_eq _).symm

theorem Functions.exceeds {i j : Tally} {ts : List Token} {ds : List FunctionDecl} :
    Functions i ts ds j → Exceeds (Stmt.functionsSurplus ds) i j
  | .none => .none
  | .more h ho => h.exceeds.trans ho.exceeds

theorem Declaration.exceeds {i j : Tally} {ts : List Token} {s : Stmt} :
    Declaration i ts s j → Exceeds s.surplus i j
  | .class _ _ hs _ h _ => hs.exceeds.trans h.exceeds
  | .function _ h => h.exceeds
  | .variable h => h.exceeds
  | .statement h => h.exceeds

theorem Declarations.exceeds {i j : Tally} {ts : List Token} {ss : List Stmt} :
    Declarations i ts ss j → Exceeds (Stmt.listSurplus ss) i j
  | .none => .none
  | .more h ho => h.exceeds.trans ho.exceeds

end

/-! ### Parameters -/

theorem enter_eq (i : Tally) (fault : SyntaxFault) (count : Nat) (first : Token) : i.enter fault count first =
    ⟨i.allocated,(([first].drop (maxArguments - count)).map (.syntactic fault)).reverse ++ i.errors⟩ := by
  by_cases hcount : maxArguments ≤ count
  · rw [Tally.enter_beyond hcount,Nat.sub_eq_zero_of_le hcount]
    rfl
  · have hdrop : [first].drop (maxArguments - count) = [] :=
      List.drop_eq_nil_of_le (by rw [List.length_singleton]; omega)
    rw [Tally.enter_within (Nat.not_le.mp hcount),hdrop]
    rfl

/-- Each parameter beyond the limit is an error, in the order of the text. -/
theorem Parameters.tally_eq {count : Nat} {i j : Tally} {ts names : List Token} (h : Parameters count i ts names j) :
    j = ⟨i.allocated,
      ((names.drop (maxArguments - count)).map (.syntactic .tooManyParameters)).reverse ++ i.errors⟩ := by
  induction h with
  | none => simp
  | one _ => exact enter_eq _ _ _ _
  | @more count i name comma ts others j _ _ _ _ ih =>
    have hdrop : ([name] ++ others).drop (maxArguments - count) =
        [name].drop (maxArguments - count) ++ others.drop (maxArguments - (count + 1)) := by
      rw [List.drop_append,List.length_singleton,Nat.sub_sub]
    rw [List.singleton_append] at hdrop
    rw [ih,enter_eq,hdrop,List.map_append,List.reverse_append,List.append_assoc]

theorem Parameters.of_identifiers {comma : Token} (hcomma : comma.kind = .comma) {names : List Token}
    (h : ∀ name ∈ names, name.kind = .identifier) :
    ∀ count i, ∃ j, Parameters count i (names.intersperse comma) names j := by
  induction names with
  | nil => exact fun count i => ⟨i,.none⟩
  | cons name names ih =>
    obtain ⟨hname,hnames⟩ := List.forall_mem_cons.mp h
    intro count i
    cases names with
    | nil => exact ⟨_,.one hname⟩
    | cons second others =>
      obtain ⟨j,hj⟩ := ih hnames (count + 1) (i.enter .tooManyParameters count name)
      exact ⟨j,.more hname hcomma hj (List.cons_ne_nil _ _)⟩

end Unlimited

/-! ### Programs -/

/-- A program with lists of any length is parsed into its own tree, with the identities numbered in its order. Each
entry beyond the limit is an error, at the first token of the entry, and there are no others: a list of `n` entries
has `n - maxArguments` of them. -/
theorem parse_overlong {i : Nat} {j : Tally} {ts : List Token} {program : List Stmt} {mark : Token}
    (h : Unlimited.Program ⟨i,[]⟩ ts program j) (hmark : mark.kind = .eof) :
    (parse (ts ++ [mark]) ⟨i⟩).statements = program ∧ (parse (ts ++ [mark]) ⟨i⟩).ids = ⟨j.allocated⟩ ∧
      (parse (ts ++ [mark]) ⟨i⟩).errors = j.errors.reverse ∧
        j.errors.length = Stmt.listSurplus program ∧ ∀ e ∈ j.errors, e.IsLimit := by
  have hc := Parser.declarations_consumes h [.eof] ((ts ++ [mark]).length + 1) ((ts ++ [mark]).length + 1) [mark]
    (by simp) (by simp; omega) (by simp; omega) (by simp [Parser.upcoming,hmark])
  obtain ⟨events,he⟩ := hc [.parsing,.parserCreated (ts ++ [mark]).length]
  have hparse : parse (ts ++ [mark]) ⟨i⟩ = .ofReader program ⟨[mark],j.allocated,j.errors,events⟩ := by
    simp only [parse,he]
  obtain ⟨errors,herrors,hlength,hlimit⟩ := h.exceeds
  rw [List.append_nil] at herrors
  rw [hparse]
  exact ⟨rfl,rfl,rfl,herrors ▸ hlength,herrors ▸ hlimit⟩

/-- A function with 257 parameters, each on a line of its own. -/
theorem parse_overlong_parameters :
    let name (line : Nat) : Token := ⟨.identifier,"a",line⟩
    let mark (kind : Kind) : Token := ⟨kind,kind.name,1⟩
    let names := (List.range' 1 257).map name
    (parse (mark .kwFun :: name 1 :: mark .leftParen :: (names.intersperse (mark .comma) ++
        [mark .rightParen,mark .leftBrace,mark .rightBrace]) ++ [.eof 257]) ⟨0⟩).errors =
      [.syntactic .tooManyParameters (name 256),.syntactic .tooManyParameters (name 257)] := by
  intro name mark names
  have hnames : ∀ t ∈ names, t.kind = .identifier := by
    intro t ht
    obtain ⟨line,-,rfl⟩ := List.mem_map.mp ht
    rfl
  have hcomma : (mark .comma).kind = .comma := rfl
  obtain ⟨j,hp⟩ := Unlimited.Parameters.of_identifiers hcomma hnames 0 ⟨0,[]⟩
  have hbody : Unlimited.Block j [mark .leftBrace,mark .rightBrace] [] j := .mk rfl .none rfl
  have h : Unlimited.Program ⟨0,[]⟩ (mark .kwFun :: name 1 :: mark .leftParen :: (names.intersperse (mark .comma) ++
      [mark .rightParen,mark .leftBrace,mark .rightBrace]) ++ []) [.function ⟨name 1,names,[]⟩] j :=
    .more (.function rfl (.mk rfl rfl hp rfl hbody)) .none
  rw [List.append_nil] at h
  rw [(parse_overlong h rfl).2.2.1,hp.tally_eq]
  rfl

end Lox

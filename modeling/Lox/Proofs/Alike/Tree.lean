import Lox.Error
import Lox.Proofs.Scoping.Place
import Mathlib.Data.List.Forall2

/-! Trees of one shape that may differ in their identities and in their tokens, and errors that are found in
such trees. -/
namespace Lox

/-- Which identities and which tokens may stand in for each other. Tokens must be spelt alike; the end mark
of an empty list is always there. -/
structure Likeness where
  id : ExprId → ExprId → Prop
  token : Token → Token → Prop
  kind : ∀ {t t'}, token t t' → t'.kind = t.kind
  lexeme : ∀ {t t'}, token t t' → t'.lexeme = t.lexeme
  eof : token (.eof 1) (.eof 1)

theorem Likeness.isEof (l : Likeness) {t t' : Token} (h : l.token t t') : t'.isEof = t.isEof := by
  rw [Token.isEof,Token.isEof,l.kind h]

/-- Identities and tokens of some kind are alike themselves only, and others are not alike at all. -/
def Likeness.only (ids : ExprId → Prop) (tokens : Token → Prop) (heof : tokens (.eof 1)) : Likeness where
  id i i' := i' = i ∧ ids i
  token t t' := t' = t ∧ tokens t
  kind h := by rw [h.1]
  lexeme h := by rw [h.1]
  eof := ⟨rfl,heof⟩

mutual

inductive Expr.Alike (l : Likeness) : Expr → Expr → Prop
  | literal {value} : Expr.Alike l (.literal value) (.literal value)
  | grouping {e e'} : Expr.Alike l e e' → Expr.Alike l (.grouping e) (.grouping e')
  | unary {t t' e e'} : l.token t t' → Expr.Alike l e e' → Expr.Alike l (.unary t e) (.unary t' e')
  | binary {a a' t t' b b'} : Expr.Alike l a a' → l.token t t' → Expr.Alike l b b' →
      Expr.Alike l (.binary a t b) (.binary a' t' b')
  | logical {a a' t t' b b'} : Expr.Alike l a a' → l.token t t' → Expr.Alike l b b' →
      Expr.Alike l (.logical a t b) (.logical a' t' b')
  | ternary {a a' b b' c c'} : Expr.Alike l a a' → Expr.Alike l b b' → Expr.Alike l c c' →
      Expr.Alike l (.ternary a b c) (.ternary a' b' c')
  | variable {i i' t t'} : l.id i i' → l.token t t' → Expr.Alike l (.variable i t) (.variable i' t')
  | assign {i i' t t' e e'} : l.id i i' → l.token t t' → Expr.Alike l e e' →
      Expr.Alike l (.assign i t e) (.assign i' t' e')
  | call {e e' t t' es es'} : Expr.Alike l e e' → l.token t t' → Expr.ListAlike l es es' →
      Expr.Alike l (.call e t es) (.call e' t' es')
  | get {e e' t t'} : Expr.Alike l e e' → l.token t t' → Expr.Alike l (.get e t) (.get e' t')
  | set {a a' t t' b b'} : Expr.Alike l a a' → l.token t t' → Expr.Alike l b b' →
      Expr.Alike l (.set a t b) (.set a' t' b')
  | this {i i' t t'} : l.id i i' → l.token t t' → Expr.Alike l (.this i t) (.this i' t')
  | super {i i' t t' u u'} : l.id i i' → l.token t t' → l.token u u' →
      Expr.Alike l (.super i t u) (.super i' t' u')

inductive Expr.ListAlike (l : Likeness) : List Expr → List Expr → Prop
  | nil : Expr.ListAlike l [] []
  | cons {e e' es es'} : Expr.Alike l e e' → Expr.ListAlike l es es' →
      Expr.ListAlike l (e :: es) (e' :: es')

end

inductive Expr.OptionAlike (l : Likeness) : Option Expr → Option Expr → Prop
  | none : Expr.OptionAlike l none none
  | some {e e'} : Expr.Alike l e e' → Expr.OptionAlike l (some e) (some e')

namespace Stmt

mutual

inductive Alike (l : Likeness) : Stmt → Stmt → Prop
  | expression {e e'} : Expr.Alike l e e' → Alike l (.expression e) (.expression e')
  | print {e e'} : Expr.Alike l e e' → Alike l (.print e) (.print e')
  | var {t t' e e'} : l.token t t' → Expr.OptionAlike l e e' → Alike l (.var t e) (.var t' e')
  | block {ss ss'} : ListAlike l ss ss' → Alike l (.block ss) (.block ss')
  | branch {e e' a a' b b'} : Expr.Alike l e e' → Alike l a a' → OptionAlike l b b' →
      Alike l (.branch e a b) (.branch e' a' b')
  | loop {e e' s s'} : Expr.Alike l e e' → Alike l s s' → Alike l (.loop e s) (.loop e' s')
  | function {d d'} : FunctionAlike l d d' → Alike l (.function d) (.function d')
  | return {t t' e e'} : l.token t t' → Expr.OptionAlike l e e' →
      Alike l (.return t e) (.return t' e')
  | class {t t' e e' ds ds'} : l.token t t' → Expr.OptionAlike l e e' → FunctionsAlike l ds ds' →
      Alike l (.class t e ds) (.class t' e' ds')

inductive OptionAlike (l : Likeness) : Option Stmt → Option Stmt → Prop
  | none : OptionAlike l none none
  | some {s s'} : Alike l s s' → OptionAlike l (some s) (some s')

inductive ListAlike (l : Likeness) : List Stmt → List Stmt → Prop
  | nil : ListAlike l [] []
  | cons {s s' ss ss'} : Alike l s s' → ListAlike l ss ss' → ListAlike l (s :: ss) (s' :: ss')

inductive FunctionAlike (l : Likeness) : FunctionDecl → FunctionDecl → Prop
  | mk {name name' parameters parameters' body body'} : l.token name name' →
      List.Forall₂ l.token parameters parameters' → ListAlike l body body' →
      FunctionAlike l ⟨name,parameters,body⟩ ⟨name',parameters',body'⟩

inductive FunctionsAlike (l : Likeness) : List FunctionDecl → List FunctionDecl → Prop
  | nil : FunctionsAlike l [] []
  | cons {d d' ds ds'} : FunctionAlike l d d' → FunctionsAlike l ds ds' →
      FunctionsAlike l (d :: ds) (d' :: ds')

end

theorem FunctionAlike.name {l : Likeness} {d d' : FunctionDecl} (h : FunctionAlike l d d') :
    l.token d.name d'.name := by
  obtain ⟨hname,-,-⟩ := h
  exact hname

theorem FunctionAlike.parameters {l : Likeness} {d d' : FunctionDecl} (h : FunctionAlike l d d') :
    List.Forall₂ l.token d.parameters d'.parameters := by
  obtain ⟨-,hparameters,-⟩ := h
  exact hparameters

theorem FunctionAlike.names {l : Likeness} {d d' : FunctionDecl} (h : FunctionAlike l d d') :
    d'.parameters.map Token.lexeme = d.parameters.map Token.lexeme := by
  obtain ⟨-,hparameters,-⟩ := h
  dsimp only
  induction hparameters with
  | nil => rfl
  | cons ht _ ih => exact List.cons_eq_cons.mpr ⟨l.lexeme ht,ih⟩

theorem FunctionAlike.body {l : Likeness} {d d' : FunctionDecl} (h : FunctionAlike l d d') :
    ListAlike l d.body d'.body := by
  obtain ⟨-,-,hbody⟩ := h
  exact hbody

end Stmt

/-- Errors with the same cause, found at tokens that are alike. -/
inductive Error.Alike (l : Likeness) : Error → Error → Prop
  | lexical {fault line} : Alike l (.lexical fault line) (.lexical fault line)
  | syntactic {fault t t'} : l.token t t' → Alike l (.syntactic fault t) (.syntactic fault t')
  | static {fault t t'} : l.token t t' → Alike l (.static fault t) (.static fault t')
  | runtime {fault t t'} : l.token t t' → Alike l (.runtime fault t.line) (.runtime fault t'.line)
  | stackOverflow {t t'} : l.token t t' → Alike l (.stackOverflow t.line) (.stackOverflow t'.line)
  | internal {fault} : Alike l (.internal fault) (.internal fault)
  | output {fault} : Alike l (.output fault) (.output fault)

/-- Where no token stands in for another one, an error is alike itself only. -/
theorem Error.Alike.eq {l : Likeness} (ht : ∀ t t', l.token t t' → t' = t) {e e' : Error}
    (h : e.Alike l e') : e' = e := by
  cases h with
  | syntactic h | «static» h | runtime h | stackOverflow h => rw [ht _ _ h]
  | _ => rfl

theorem Error.Alike.all_eq {l : Likeness} (ht : ∀ t t', l.token t t' → t' = t) {es es' : List Error}
    (h : List.Forall₂ (Error.Alike l) es es') : es' = es := by
  induction h with
  | nil => rfl
  | cons h _ ih => rw [h.eq ht,ih]

/-! ### Change of likeness -/

/-- Tokens that are alike in the first way are so in the second way. -/
def Likeness.TokensIn (l l' : Likeness) : Prop := ∀ t t', l.token t t' → l'.token t t'

variable {l l' : Likeness}

theorem Error.Alike.mono (ht : l.TokensIn l') {e e' : Error} (h : e.Alike l e') : e.Alike l' e' := by
  cases h with
  | syntactic h => exact .syntactic (ht _ _ h)
  | «static» h => exact .static (ht _ _ h)
  | runtime h => exact .runtime (ht _ _ h)
  | stackOverflow h => exact .stackOverflow (ht _ _ h)
  | lexical => exact .lexical
  | internal => exact .internal
  | output => exact .output

mutual

/-- It is enough to look at the identities that the first tree has. -/
theorem Expr.Alike.change (ht : l.TokensIn l') {here : Place} : ∀ {e e' : Expr}, e.Alike l e' →
    (∀ o ∈ e.occurrences here, ∀ i', l.id o.1 i' → l'.id o.1 i') → e.Alike l' e'
  | _,_,.literal,_ => .literal
  | _,_,.grouping h,hid => .grouping (h.change ht hid)
  | _,_,.unary hop h,hid => .unary (ht _ _ hop) (h.change ht hid)
  | _,_,.binary ha hop hb,hid =>
    .binary (ha.change ht fun o ho => hid o (List.mem_append_left _ ho)) (ht _ _ hop)
      (hb.change ht fun o ho => hid o (List.mem_append_right _ ho))
  | _,_,.logical ha hop hb,hid =>
    .logical (ha.change ht fun o ho => hid o (List.mem_append_left _ ho)) (ht _ _ hop)
      (hb.change ht fun o ho => hid o (List.mem_append_right _ ho))
  | _,_,.ternary ha hb hc,hid =>
    .ternary (ha.change ht fun o ho => hid o (List.mem_append_left _ ho))
      (hb.change ht fun o ho => hid o (List.mem_append_right _ (List.mem_append_left _ ho)))
      (hc.change ht fun o ho => hid o (List.mem_append_right _ (List.mem_append_right _ ho)))
  | _,_,.variable hi hname,hid => .variable (hid _ List.mem_cons_self _ hi) (ht _ _ hname)
  | _,_,.assign hi hname h,hid =>
    .assign (hid _ (List.mem_append_right _ List.mem_cons_self) _ hi) (ht _ _ hname)
      (h.change ht fun o ho => hid o (List.mem_append_left _ ho))
  | _,_,.call h hparen hs,hid =>
    .call (h.change ht fun o ho => hid o (List.mem_append_left _ ho)) (ht _ _ hparen)
      (hs.change ht fun o ho => hid o (List.mem_append_right _ ho))
  | _,_,.get h hname,hid => .get (h.change ht hid) (ht _ _ hname)
  | _,_,.set ha hname hb,hid =>
    .set (ha.change ht fun o ho => hid o (List.mem_append_right _ ho)) (ht _ _ hname)
      (hb.change ht fun o ho => hid o (List.mem_append_left _ ho))
  | _,_,.this hi hkeyword,hid => .this (hid _ List.mem_cons_self _ hi) (ht _ _ hkeyword)
  | _,_,.super hi hkeyword hmethod,hid =>
    .super (hid _ List.mem_cons_self _ hi) (ht _ _ hkeyword) (ht _ _ hmethod)

theorem Expr.ListAlike.change (ht : l.TokensIn l') {here : Place} :
    ∀ {es es' : List Expr}, Expr.ListAlike l es es' →
    (∀ o ∈ Expr.listOccurrences here es, ∀ i', l.id o.1 i' → l'.id o.1 i') →
    Expr.ListAlike l' es es'
  | _,_,.nil,_ => .nil
  | _,_,.cons h hs,hid =>
    .cons (h.change ht fun o ho => hid o (List.mem_append_left _ ho))
      (hs.change ht fun o ho => hid o (List.mem_append_right _ ho))

end

theorem Expr.OptionAlike.change (ht : l.TokensIn l') {here : Place} {e e' : Option Expr}
    (h : Expr.OptionAlike l e e')
    (hid : ∀ o ∈ Expr.optionOccurrences here e, ∀ i', l.id o.1 i' → l'.id o.1 i') :
    Expr.OptionAlike l' e e' := by
  cases h with
  | none => exact .none
  | some h => exact .some (h.change ht hid)

namespace Stmt

mutual

theorem Alike.change (ht : l.TokensIn l') {sites : List Site} : ∀ {s s' : Stmt}, s.Alike l s' →
    (∀ o ∈ s.occurrences sites, ∀ i', l.id o.1 i' → l'.id o.1 i') → s.Alike l' s'
  | _,_,.expression h,hid => .expression (h.change ht hid)
  | _,_,.print h,hid => .print (h.change ht hid)
  | _,_,.var hname h,hid => .var (ht _ _ hname) (h.change ht hid)
  | _,_,.block h,hid => .block (h.change ht hid)
  | _,_,.branch he ha hb,hid =>
    .branch (he.change ht fun o ho => hid o (List.mem_append_left _ ho))
      (ha.change ht fun o ho => hid o (List.mem_append_right _ (List.mem_append_left _ ho)))
      (hb.change ht fun o ho => hid o (List.mem_append_right _ (List.mem_append_right _ ho)))
  | _,_,.loop he h,hid =>
    .loop (he.change ht fun o ho => hid o (List.mem_append_left _ ho))
      (h.change ht fun o ho => hid o (List.mem_append_right _ ho))
  | _,_,.function h,hid => .function (h.change ht hid)
  | _,_,.return hkeyword h,hid => .return (ht _ _ hkeyword) (h.change ht hid)
  | _,_,.class hname h hs,hid =>
    .class (ht _ _ hname) (h.change ht fun o ho => hid o (List.mem_append_left _ ho))
      (hs.change ht fun o ho => hid o (List.mem_append_right _ ho))

theorem OptionAlike.change (ht : l.TokensIn l') {sites : List Site} :
    ∀ {s s' : Option Stmt}, OptionAlike l s s' →
    (∀ o ∈ optionOccurrences sites s, ∀ i', l.id o.1 i' → l'.id o.1 i') → OptionAlike l' s s'
  | _,_,.none,_ => .none
  | _,_,.some h,hid => .some (h.change ht hid)

theorem ListAlike.change (ht : l.TokensIn l') {sites : List Site} :
    ∀ {ss ss' : List Stmt}, ListAlike l ss ss' →
    (∀ o ∈ listOccurrences sites ss, ∀ i', l.id o.1 i' → l'.id o.1 i') → ListAlike l' ss ss'
  | _,_,.nil,_ => .nil
  | _,_,.cons h hs,hid =>
    .cons (h.change ht fun o ho => hid o (List.mem_append_left _ ho))
      (hs.change ht fun o ho => hid o (List.mem_append_right _ ho))

theorem FunctionAlike.change (ht : l.TokensIn l') {sites : List Site} :
    ∀ {d d' : FunctionDecl}, FunctionAlike l d d' →
    (∀ o ∈ functionOccurrences sites d, ∀ i', l.id o.1 i' → l'.id o.1 i') → FunctionAlike l' d d'
  | _,_,.mk hname hparameters h,hid =>
    .mk (ht _ _ hname) (hparameters.imp fun _ _ => ht _ _) (h.change ht hid)

theorem FunctionsAlike.change (ht : l.TokensIn l') {sites : List Site} : ∀ {ds ds' : List FunctionDecl},
    FunctionsAlike l ds ds' →
    (∀ o ∈ methodOccurrences sites ds, ∀ i', l.id o.1 i' → l'.id o.1 i') → FunctionsAlike l' ds ds'
  | _,_,.nil,_ => .nil
  | _,_,.cons h hs,hid =>
    .cons (h.change ht fun o ho => hid o (List.mem_append_left _ ho))
      (hs.change ht fun o ho => hid o (List.mem_append_right _ ho))

end

theorem FunctionAlike.mono (ht : l.TokensIn l') (hid : ∀ i i', l.id i i' → l'.id i i')
    {d d' : FunctionDecl}
    (h : FunctionAlike l d d') : FunctionAlike l' d d' := by
  have hsites : ∀ o ∈ functionOccurrences [] d, ∀ i', l.id o.1 i' → l'.id o.1 i' := fun o _ => hid o.1
  exact h.change ht hsites

end Stmt

end Lox

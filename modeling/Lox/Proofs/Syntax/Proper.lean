import Lox.Proofs.Scoping.Place
import Lox.Proofs.Syntax.Grammar
import Lox.Proofs.Token.Words

/-! What holds of every tree that is parsed from the tokens of a text, beyond its shape: how its tokens
are spelt, where declarations stand, and that its identities are numbered without repetition. -/
namespace Lox

/-- A name that no scope of `this` or `super` holds. -/
def Token.IsName (t : Token) : Prop := t.lexeme ≠ "this" ∧ t.lexeme ≠ "super"

theorem Token.Genuine.isName {t : Token} (h : t.Genuine) (hk : t.kind = .identifier) : t.IsName :=
  ⟨h.ne_of_name hk (by decide),h.ne_of_name hk (by decide)⟩

/-- The operators whose operands are both evaluated. -/
def Kind.binaryOperators : List Kind :=
  [.bangEqual,.equalEqual,.greater,.greaterEqual,.less,.lessEqual,.minus,.plus,.slash,.star]

mutual

def Expr.Proper : Expr → Prop
  | .literal _ | .variable _ _ => True
  | .grouping inner => inner.Proper
  | .unary operator right => operator.kind ∈ [Kind.bang,.minus] ∧ right.Proper
  | .binary left operator right =>
    operator.kind ∈ Kind.binaryOperators ∧ left.Proper ∧ right.Proper
  | .logical left _ right => left.Proper ∧ right.Proper
  | .ternary condition ifTrue ifFalse => condition.Proper ∧ ifTrue.Proper ∧ ifFalse.Proper
  | .assign _ name value => name.IsName ∧ value.Proper
  | .call callee _ arguments => callee.Proper ∧ Expr.ListProper arguments
  | .get object _ => object.Proper
  | .set object _ value => object.Proper ∧ value.Proper
  | .this _ keyword => keyword.lexeme = "this"
  | .super _ keyword _ => keyword.lexeme = "super"

def Expr.ListProper : List Expr → Prop
  | [] => True
  | e :: es => e.Proper ∧ Expr.ListProper es

end

def Expr.OptionProper : Option Expr → Prop
  | none => True
  | some e => e.Proper

/-- The superclass of a class is given by its name. -/
def Expr.IsVariable (e : Expr) : Prop := ∃ id name, e = .variable id name

namespace Stmt

mutual

/-- Branches and bodies of loops declare no names in the scope around them. -/
def Proper : Stmt → Prop
  | .expression e | .print e => e.Proper
  | .var name initializer => name.IsName ∧ Expr.OptionProper initializer
  | .block body => ListProper body
  | .branch condition thenBranch elseBranch => condition.Proper ∧
      (thenBranch.Proper ∧ thenBranch.declared? = none) ∧ OptionProper elseBranch
  | .loop condition body => condition.Proper ∧ body.Proper ∧ body.declared? = none
  | .function d => FunctionProper d
  | .return _ value => Expr.OptionProper value
  | .class name superclass methods =>
    name.IsName ∧ (∀ e, superclass = some e → e.IsVariable) ∧ ListFunctionProper methods

def OptionProper : Option Stmt → Prop
  | none => True
  | some s => s.Proper ∧ s.declared? = none

def ListProper : List Stmt → Prop
  | [] => True
  | s :: ss => s.Proper ∧ ListProper ss

def FunctionProper : FunctionDecl → Prop
  | ⟨name,parameters,body⟩ => name.IsName ∧ (∀ p ∈ parameters, p.IsName) ∧ ListProper body

def ListFunctionProper : List FunctionDecl → Prop
  | [] => True
  | d :: ds => FunctionProper d ∧ ListFunctionProper ds

end

theorem functionProper_iff (d : FunctionDecl) : FunctionProper d ↔
    d.name.IsName ∧ (∀ p ∈ d.parameters, p.IsName) ∧ ListProper d.body := by
  cases d
  rfl

theorem Proper.declared_isName {s : Stmt} (h : s.Proper) {name : String}
    (hname : s.declared? = some name) : name ≠ "this" ∧ name ≠ "super" := by
  cases s with
  | var t e =>
    obtain rfl := Option.some.inj hname
    exact h.1
  | function d =>
    obtain rfl := Option.some.inj hname
    exact ((functionProper_iff d).mp h).1
  | «class» t parent methods =>
    obtain rfl := Option.some.inj hname
    exact h.1
  | _ => simp [declared?] at hname

end Stmt

/-- Identities with different numbers from `i` on and below `j`. -/
def Numbered (i j : Nat) (ids : List ExprId) : Prop :=
  ∃ ks : List Nat, ids = ks.map .numbered ∧ ks.Nodup ∧ ∀ k ∈ ks, i ≤ k ∧ k < j

namespace Numbered

variable {i j k : Nat} {a b : List ExprId}

theorem nil : Numbered i j [] := ⟨[],rfl,List.nodup_nil,by simp⟩

theorem single : Numbered i (i + 1) [.numbered i] := ⟨[i],rfl,by simp,by simp⟩

theorem weaken {i' j' : Nat} (h : Numbered i j a) (hi : i' ≤ i) (hj : j ≤ j') : Numbered i' j' a := by
  obtain ⟨ks,rfl,hnodup,hks⟩ := h
  refine ⟨ks,rfl,hnodup,fun k hk => ?_⟩
  have hbounds := hks k hk
  omega

theorem exists_number (h : Numbered i j a) {id : ExprId} (hid : id ∈ a) :
    ∃ k, i ≤ k ∧ k < j ∧ id = .numbered k := by
  obtain ⟨ks,rfl,-,hks⟩ := h
  obtain ⟨k,hk,rfl⟩ := List.mem_map.mp hid
  exact ⟨k,(hks k hk).1,(hks k hk).2,rfl⟩

theorem append (ha : Numbered i j a) (hb : Numbered j k b) (hij : i ≤ j) (hjk : j ≤ k) :
    Numbered i k (a ++ b) := by
  obtain ⟨ks,rfl,hks,hi⟩ := ha
  obtain ⟨ls,rfl,hls,hk⟩ := hb
  refine ⟨ks ++ ls,by simp,List.nodup_append.mpr ⟨hks,hls,?_⟩,?_⟩
  · intro x hx y hy
    have hxbound := hi x hx
    have hybound := hk y hy
    omega
  · intro x hx
    rcases List.mem_append.mp hx with hx | hx
    · have hbound := hi x hx
      omega
    · have hbound := hk x hx
      omega

/-- What is numbered later may also come first. -/
theorem append_swap (ha : Numbered i j a) (hb : Numbered j k b) (hij : i ≤ j) (hjk : j ≤ k) :
    Numbered i k (b ++ a) := by
  obtain ⟨ks,hks,hnodup,hbound⟩ := ha.append hb hij hjk
  obtain ⟨ls,ms,rfl,rfl,rfl⟩ := List.append_eq_map_iff.mp hks
  refine ⟨ms ++ ls,by simp,(List.perm_append_comm.nodup_iff).mp hnodup,fun x hx => ?_⟩
  exact hbound x (by simpa [or_comm] using hx)

end Numbered
/-- A tree whose identities are numbered from `i` on and below `j`. -/
structure Expr.Regular (e : Expr) (i j : Nat) : Prop where
  proper : e.Proper
  le : i ≤ j
  numbered : ∀ here, Numbered i j ((e.occurrences here).map Prod.fst)

structure Expr.ListRegular (es : List Expr) (i j : Nat) : Prop where
  proper : Expr.ListProper es
  le : i ≤ j
  numbered : ∀ here, Numbered i j ((Expr.listOccurrences here es).map Prod.fst)

structure Expr.OptionRegular (e : Option Expr) (i j : Nat) : Prop where
  proper : Expr.OptionProper e
  le : i ≤ j
  numbered : ∀ here, Numbered i j ((Expr.optionOccurrences here e).map Prod.fst)

namespace Grammar

mutual

theorem Expression.regular {l : Precedence} {i j : Nat} {ts : List Token} {e : Expr} :
    Expression l i ts e j → (∀ t ∈ ts, t.Genuine) → e.Regular i j
  | .operand _ h,hts => h.regular hts
  | .joined (l := l) h hop hr,hts => by
    have hleft := h.regular fun t ht => hts t (by simp [ht])
    have hright := hr.regular fun t ht => hts t (by simp [ht])
    have hle := Nat.le_trans hleft.le hright.le
    have hnumbered here := (hleft.numbered here).append (hright.numbered here) hleft.le hright.le
    simp only [← List.map_append] at hnumbered
    have hbinary (hl : l.operators ⊆ Kind.binaryOperators) := hl hop
    cases l with
    | disjunction | conjunction => exact ⟨⟨hleft.proper,hright.proper⟩,hle,hnumbered⟩
    | equality | comparison | term | factor =>
      exact ⟨⟨hbinary (by decide),hleft.proper,hright.proper⟩,hle,hnumbered⟩
    | _ => simp [Precedence.operators] at hop
  | .assign hname _ h,hts => by
    have hvalue := h.regular fun t ht => hts t (by simp [ht])
    have hgenuine := hts _ List.mem_cons_self
    refine ⟨⟨hgenuine.isName hname,hvalue.proper⟩,?_,fun here => ?_⟩
    · have hle := hvalue.le
      omega
    · have hle := hvalue.le
      have hnumbered := (hvalue.numbered here).append .single hle (Nat.le_succ _)
      simpa [Expr.occurrences] using hnumbered.weaken (Nat.le_succ _) (Nat.le_refl _)
  | .set ho _ _ _ hv,hts => by
    have hobject := ho.regular fun t ht => hts t (by simp [ht])
    have hvalue := hv.regular fun t ht => hts t (by simp [ht])
    refine ⟨⟨hobject.proper,hvalue.proper⟩,Nat.le_trans hobject.le hvalue.le,fun here => ?_⟩
    have hnumbered := (hobject.numbered here).append_swap (hvalue.numbered here) hobject.le hvalue.le
    simpa [Expr.occurrences] using hnumbered
  | .ternary hc _ ha _ hb,hts => by
    have hcondition := hc.regular fun t ht => hts t (by simp [ht])
    have htrue := ha.regular fun t ht => hts t (by simp [ht])
    have hfalse := hb.regular fun t ht => hts t (by simp [ht])
    have hle := Nat.le_trans htrue.le hfalse.le
    refine ⟨⟨hcondition.proper,htrue.proper,hfalse.proper⟩,Nat.le_trans hcondition.le hle,fun here => ?_⟩
    have hbranches := (htrue.numbered here).append (hfalse.numbered here) htrue.le hfalse.le
    simpa [Expr.occurrences] using (hcondition.numbered here).append hbranches hcondition.le hle
  | .unary hop h,hts => by
    have hright := h.regular fun t ht => hts t (by simp [ht])
    exact ⟨⟨hop,hright.proper⟩,hright.le,hright.numbered⟩
  | .call h _ hargs _ _,hts => by
    have hcallee := h.regular fun t ht => hts t (by simp [ht])
    have harguments := hargs.regular fun t ht => hts t (by simp [ht])
    refine ⟨⟨hcallee.proper,harguments.proper⟩,Nat.le_trans hcallee.le harguments.le,fun here => ?_⟩
    have hnumbered := (hcallee.numbered here).append (harguments.numbered here) hcallee.le harguments.le
    simpa [Expr.occurrences] using hnumbered
  | .get h _ _,hts => by
    have hobject := h.regular fun t ht => hts t (by simp [ht])
    exact ⟨hobject.proper,hobject.le,hobject.numbered⟩
  | .literal _,_ => ⟨trivial,Nat.le_refl _,fun _ => .nil⟩
  | .variable _,_ => ⟨trivial,Nat.le_succ _,fun _ => .single⟩
  | .this hk,hts => ⟨(hts _ List.mem_cons_self).lexeme_of_this hk,Nat.le_succ _,fun _ => .single⟩
  | .super hk _ _,hts =>
    ⟨(hts _ List.mem_cons_self).lexeme_of_super hk,Nat.le_succ _,fun _ => .single⟩
  | .group _ h _,hts => by
    have hinner := h.regular fun t ht => hts t (by simp [ht])
    exact ⟨hinner.proper,hinner.le,hinner.numbered⟩

theorem Arguments.regular {i j : Nat} {ts : List Token} {es : List Expr} :
    Arguments i ts es j → (∀ t ∈ ts, t.Genuine) → Expr.ListRegular es i j
  | .none,_ => ⟨trivial,Nat.le_refl _,fun _ => .nil⟩
  | .one h,hts => by
    have he := h.regular hts
    exact ⟨⟨he.proper,trivial⟩,he.le,fun here => by simpa [Expr.listOccurrences] using he.numbered here⟩
  | .more h _ ho _,hts => by
    have he := h.regular fun t ht => hts t (by simp [ht])
    have hothers := ho.regular fun t ht => hts t (by simp [ht])
    refine ⟨⟨he.proper,hothers.proper⟩,Nat.le_trans he.le hothers.le,fun here => ?_⟩
    have hnumbered := (he.numbered here).append (hothers.numbered here) he.le hothers.le
    simpa [Expr.listOccurrences] using hnumbered

end

theorem OptionalExpression.regular {i j : Nat} {ts : List Token} {e : Option Expr}
    (h : OptionalExpression i ts e j) (hts : ∀ t ∈ ts, t.Genuine) : Expr.OptionRegular e i j := by
  cases h with
  | absent => exact ⟨trivial,Nat.le_refl _,fun _ => .nil⟩
  | present h =>
    have he := h.regular hts
    exact ⟨he.proper,he.le,he.numbered⟩

end Grammar

namespace Stmt

structure Regular (s : Stmt) (i j : Nat) : Prop where
  proper : s.Proper
  le : i ≤ j
  numbered : ∀ sites, Numbered i j ((s.occurrences sites).map Prod.fst)

structure ListRegular (ss : List Stmt) (i j : Nat) : Prop where
  proper : ListProper ss
  le : i ≤ j
  numbered : ∀ sites, Numbered i j ((listOccurrences sites ss).map Prod.fst)

structure FunctionRegular (d : FunctionDecl) (i j : Nat) : Prop where
  proper : FunctionProper d
  le : i ≤ j
  numbered : ∀ sites, Numbered i j ((functionOccurrences sites d).map Prod.fst)

structure MethodsRegular (ds : List FunctionDecl) (i j : Nat) : Prop where
  proper : ListFunctionProper ds
  le : i ≤ j
  numbered : ∀ sites, Numbered i j ((methodOccurrences sites ds).map Prod.fst)

end Stmt

namespace Grammar

theorem VariableDeclaration.regular {i j : Nat} {ts : List Token} {s : Stmt}
    (h : VariableDeclaration i ts s j) (hts : ∀ t ∈ ts, t.Genuine) : s.Regular i j := by
  cases h with
  | plain _ hname _ =>
    have hgenuine := hts _ (List.mem_cons_of_mem _ List.mem_cons_self)
    have hname := hgenuine.isName hname
    exact ⟨⟨hname,trivial⟩,Nat.le_refl _,fun _ => .nil⟩
  | initialized _ hname _ h _ =>
    have hgenuine := hts _ (List.mem_cons_of_mem _ List.mem_cons_self)
    have hname := hgenuine.isName hname
    have he := h.regular fun t ht => hts t (by simp [ht])
    exact ⟨⟨hname,he.proper⟩,he.le,fun _ => he.numbered _⟩

theorem ExpressionStatement.regular {i j : Nat} {ts : List Token} {s : Stmt}
    (h : ExpressionStatement i ts s j) (hts : ∀ t ∈ ts, t.Genuine) : s.Regular i j := by
  cases h with
  | mk h _ =>
    have he := h.regular fun t ht => hts t (by simp [ht])
    exact ⟨he.proper,he.le,fun _ => he.numbered _⟩

theorem Parameters.isName {ts names : List Token} (h : Parameters ts names)
    (hts : ∀ t ∈ ts, t.Genuine) : ∀ name ∈ names, name.IsName := by
  induction h with
  | none => simp
  | one h => simpa using (hts _ List.mem_cons_self).isName h
  | more h _ _ _ ih =>
    have hfirst := (hts _ List.mem_cons_self).isName h
    have hothers := ih fun t ht => hts t (by simp [ht])
    simpa [hfirst] using hothers

theorem Superclass.regular {i j : Nat} {ts : List Token} {e : Option Expr} (h : Superclass i ts e j) :
    (∀ parent, e = some parent → parent.IsVariable) ∧ i ≤ j ∧
      ∀ here, Numbered i j ((Expr.optionOccurrences here e).map Prod.fst) := by
  cases h with
  | absent => exact ⟨by simp,Nat.le_refl _,fun _ => .nil⟩
  | present _ _ =>
    refine ⟨?_,Nat.le_succ _,fun _ => .single⟩
    rintro _ ⟨⟩
    exact ⟨_,_,rfl⟩

theorem Statement.declares_nothing {isOpen : Bool} {i j : Nat} {ts : List Token} {s : Stmt}
    (h : Statement isOpen i ts s j) : s.declared? = none := by
  cases h with
  | expression h =>
    obtain ⟨-,-⟩ := h
    rfl
  | @«for» _ _ _ _ initializer _ _ condition _ _ _ increment =>
    cases initializer <;> cases condition <;> rfl
  | _ => rfl

theorem Initializer.regular {i j : Nat} {ts : List Token} {s : Option Stmt} (h : Initializer i ts s j)
    (hts : ∀ t ∈ ts, t.Genuine) : s = none ∧ i = j ∨ ∃ b, s = some b ∧ b.Regular i j := by
  cases h with
  | absent _ => exact .inl ⟨rfl,rfl⟩
  | «variable» h => exact .inr ⟨_,rfl,h.regular hts⟩
  | expression h => exact .inr ⟨_,rfl,h.regular hts⟩

/-! A `for` statement, from the inside. -/

section Desugaring

variable {i j k l : Nat} {body : Stmt}

theorem stepped_regular {increment : Option Expr} (hbody : body.Regular j k)
    (hdeclared : body.declared? = none) (h : Expr.OptionRegular increment i j) :
    (stepped body increment).Regular i k ∧ (stepped body increment).declared? = none := by
  have hle := Nat.le_trans h.le hbody.le
  cases increment with
  | none =>
    refine ⟨⟨hbody.proper,hle,fun sites => ?_⟩,hdeclared⟩
    exact (hbody.numbered sites).weaken h.le (Nat.le_refl _)
  | some e =>
    refine ⟨⟨⟨hbody.proper,h.proper,trivial⟩,hle,fun sites => ?_⟩,rfl⟩
    have hnumbered here sites := (h.numbered here).append_swap (hbody.numbered sites) h.le hbody.le
    simpa [stepped,Stmt.occurrences,Stmt.listOccurrences,Expr.optionOccurrences] using hnumbered _ _

theorem conditional_regular {condition : Option Expr} (h : Expr.OptionRegular condition i j)
    (hbody : body.Regular j k) (hdeclared : body.declared? = none) :
    (Stmt.loop (condition.getD (.literal (.boolean true))) body).Regular i k := by
  have hle := Nat.le_trans h.le hbody.le
  cases condition with
  | none =>
    refine ⟨⟨trivial,hbody.proper,hdeclared⟩,hle,fun sites => ?_⟩
    exact (hbody.numbered sites).weaken h.le (Nat.le_refl _)
  | some e =>
    refine ⟨⟨h.proper,hbody.proper,hdeclared⟩,hle,fun sites => ?_⟩
    have hnumbered := (h.numbered ⟨sites,none⟩).append (hbody.numbered sites) h.le hbody.le
    simpa [Stmt.occurrences,Expr.optionOccurrences] using hnumbered

theorem desugared_regular {initializer : Option Stmt} {condition increment : Option Expr} {m : Nat}
    (hi : initializer = none ∧ i = j ∨ ∃ b, initializer = some b ∧ b.Regular i j)
    (hc : Expr.OptionRegular condition j k) (hinc : Expr.OptionRegular increment k l)
    (hbody : body.Regular l m) (hdeclared : body.declared? = none) :
    (desugared initializer condition increment body).Regular i m := by
  obtain ⟨hstepped,hnone⟩ := stepped_regular hbody hdeclared hinc
  have hloop := conditional_regular hc hstepped hnone
  obtain ⟨rfl,rfl⟩ | ⟨b,rfl,hb⟩ := hi
  · cases condition <;> exact hloop
  · have hblock : (Stmt.block [b,.loop (condition.getD (.literal (.boolean true)))
        (stepped body increment)]).Regular i m := by
      refine ⟨⟨hb.proper,hloop.proper,trivial⟩,Nat.le_trans hb.le hloop.le,fun sites => ?_⟩
      have hnumbered sites := (hb.numbered sites).append (hloop.numbered sites) hb.le hloop.le
      simpa [Stmt.occurrences,Stmt.listOccurrences] using hnumbered _
    cases condition <;> exact hblock

end Desugaring

mutual

theorem Statement.regular {isOpen : Bool} {i j : Nat} {ts : List Token} {s : Stmt} :
    Statement isOpen i ts s j → (∀ t ∈ ts, t.Genuine) → s.Regular i j
  | .expression h,hts => h.regular hts
  | .print _ h _,hts => by
    have he := h.regular fun t ht => hts t (by simp [ht])
    exact ⟨he.proper,he.le,fun _ => he.numbered _⟩
  | .return _ h _,hts => by
    have he := h.regular fun t ht => hts t (by simp [ht])
    exact ⟨he.proper,he.le,fun _ => he.numbered _⟩
  | .block h,hts => by
    have hbody := h.regular hts
    exact ⟨hbody.proper,hbody.le,fun _ => hbody.numbered _⟩
  | .ifThen _ _ hc _ h,hts => by
    have hcondition := hc.regular fun t ht => hts t (by simp [ht])
    have hthen := h.regular fun t ht => hts t (by simp [ht])
    refine ⟨⟨hcondition.proper,⟨hthen.proper,h.declares_nothing⟩,trivial⟩,
      Nat.le_trans hcondition.le hthen.le,fun sites => ?_⟩
    have hnumbered := (hcondition.numbered ⟨sites,none⟩).append (hthen.numbered sites)
      hcondition.le hthen.le
    simpa [Stmt.occurrences,Stmt.optionOccurrences] using hnumbered
  | .ifElse _ _ hc _ h _ he,hts => by
    have hcondition := hc.regular fun t ht => hts t (by simp [ht])
    have hthen := h.regular fun t ht => hts t (by simp [ht])
    have helse := he.regular fun t ht => hts t (by simp [ht])
    have hle := Nat.le_trans hthen.le helse.le
    refine ⟨⟨hcondition.proper,⟨hthen.proper,h.declares_nothing⟩,helse.proper,he.declares_nothing⟩,
      Nat.le_trans hcondition.le hle,fun sites => ?_⟩
    have hbranches := (hthen.numbered sites).append (helse.numbered sites) hthen.le helse.le
    have hnumbered := (hcondition.numbered ⟨sites,none⟩).append hbranches hcondition.le hle
    simpa [Stmt.occurrences,Stmt.optionOccurrences] using hnumbered
  | .while _ _ hc _ h,hts => by
    have hcondition := hc.regular fun t ht => hts t (by simp [ht])
    have hbody := h.regular fun t ht => hts t (by simp [ht])
    refine ⟨⟨hcondition.proper,hbody.proper,h.declares_nothing⟩,
      Nat.le_trans hcondition.le hbody.le,fun sites => ?_⟩
    have hnumbered := (hcondition.numbered ⟨sites,none⟩).append (hbody.numbered sites)
      hcondition.le hbody.le
    simpa [Stmt.occurrences] using hnumbered
  | .for _ _ hi hc _ hinc _ h,hts => by
    have hinitializer := hi.regular fun t ht => hts t (by simp [ht])
    have hcondition := hc.regular fun t ht => hts t (by simp [ht])
    have hincrement := hinc.regular fun t ht => hts t (by simp [ht])
    have hbody := h.regular fun t ht => hts t (by simp [ht])
    exact desugared_regular hinitializer hcondition hincrement hbody h.declares_nothing

theorem Block.regular {i j : Nat} {ts : List Token} {ss : List Stmt} :
    Block i ts ss j → (∀ t ∈ ts, t.Genuine) → Stmt.ListRegular ss i j
  | .mk _ h _,hts => h.regular fun t ht => hts t (by simp [ht])

theorem Function.regular {i j : Nat} {ts : List Token} {d : FunctionDecl} :
    Function i ts d j → (∀ t ∈ ts, t.Genuine) → Stmt.FunctionRegular d i j
  | .mk hname _ hp _ _ h,hts => by
    have hbody := h.regular fun t ht => hts t (by simp [ht])
    have hparameters := hp.isName fun t ht => hts t (by simp [ht])
    have hgenuine := hts _ List.mem_cons_self
    have hproper := (Stmt.functionProper_iff _).mpr ⟨hgenuine.isName hname,hparameters,hbody.proper⟩
    refine ⟨hproper,hbody.le,fun sites => ?_⟩
    rw [Stmt.functionOccurrences_eq]
    exact hbody.numbered _

theorem Functions.regular {i j : Nat} {ts : List Token} {ds : List FunctionDecl} :
    Functions i ts ds j → (∀ t ∈ ts, t.Genuine) → Stmt.MethodsRegular ds i j
  | .none,_ => ⟨trivial,Nat.le_refl _,fun _ => .nil⟩
  | .more h ho,hts => by
    have hfirst := h.regular fun t ht => hts t (by simp [ht])
    have hothers := ho.regular fun t ht => hts t (by simp [ht])
    refine ⟨⟨hfirst.proper,hothers.proper⟩,Nat.le_trans hfirst.le hothers.le,fun sites => ?_⟩
    have hnumbered inner := (hfirst.numbered inner).append (hothers.numbered sites) hfirst.le hothers.le
    simpa [Stmt.methodOccurrences] using hnumbered _

theorem Declaration.regular {i j : Nat} {ts : List Token} {s : Stmt} :
    Declaration i ts s j → (∀ t ∈ ts, t.Genuine) → s.Regular i j
  | .class _ hname hs _ h _,hts => by
    have hgenuine := hts _ (List.mem_cons_of_mem _ List.mem_cons_self)
    obtain ⟨hvariable,hle,hnumbered⟩ := hs.regular
    have hmethods := h.regular fun t ht => hts t (by simp [ht])
    refine ⟨⟨hgenuine.isName hname,hvariable,hmethods.proper⟩,Nat.le_trans hle hmethods.le,
      fun sites => ?_⟩
    have hboth around := (hnumbered ⟨sites,none⟩).append (hmethods.numbered around) hle hmethods.le
    simpa [Stmt.occurrences] using hboth _
  | .function _ h,hts => by
    have hfunction := h.regular fun t ht => hts t (by simp [ht])
    exact ⟨hfunction.proper,hfunction.le,hfunction.numbered⟩
  | .variable h,hts => h.regular hts
  | .statement h,hts => h.regular hts

theorem Declarations.regular {i j : Nat} {ts : List Token} {ss : List Stmt} :
    Declarations i ts ss j → (∀ t ∈ ts, t.Genuine) → Stmt.ListRegular ss i j
  | .none,_ => ⟨trivial,Nat.le_refl _,fun _ => .nil⟩
  | .more h ho,hts => by
    have hfirst := h.regular fun t ht => hts t (by simp [ht])
    have hothers := ho.regular fun t ht => hts t (by simp [ht])
    refine ⟨⟨hfirst.proper,hothers.proper⟩,Nat.le_trans hfirst.le hothers.le,fun sites => ?_⟩
    have hnumbered := (hfirst.numbered sites).append (hothers.numbered sites) hfirst.le hothers.le
    simpa [Stmt.listOccurrences] using hnumbered

end

end Grammar
end Lox

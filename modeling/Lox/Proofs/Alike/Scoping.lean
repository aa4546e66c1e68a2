import Lox.Proofs.Alike.Tree
import Lox.Proofs.Scoping.Resolver

/-! Scoping finds the same in trees that are alike, up to the identities and tokens in what it finds. -/
namespace Lox

inductive Finding.Alike (l : Likeness) : Finding → Finding → Prop
  | occurrence {i i' name depth} : l.id i i' → Alike l (.occurrence i name depth) (.occurrence i' name depth)
  | fault {e e'} : e.Alike l e' → Alike l (.fault e) (.fault e')
  | classDone {name} : Alike l (.classDone name) (.classDone name)

/-- Two passes are at the same point, and what they have found since they started is alike. They may have
started with different findings. -/
structure Scoping.Alike (l : Likeness) (base base' : List Finding) (s s' : Scoping) : Prop where
  scopes : s'.scopes = s.scopes
  findings : ∃ new new', s.findings = new ++ base ∧ s'.findings = new' ++ base' ∧
    List.Forall₂ (Finding.Alike l) new new'

variable {l : Likeness}

namespace Scoping.Alike

variable {base base' : List Finding} {s s' : Scoping}

theorem start (scopes : List (Bindings Bool)) : Alike l base base' ⟨scopes,base⟩ ⟨scopes,base'⟩ :=
  ⟨rfl,[],[],rfl,rfl,.nil⟩

/-- The scopes change in the same way. -/
theorem rescope {t t' : Scoping} (h : Alike l base base' s s') (hscopes : t'.scopes = t.scopes)
    (hfindings : t.findings = s.findings) (hfindings' : t'.findings = s'.findings) :
    Alike l base base' t t' :=
  ⟨hscopes,by rw [hfindings,hfindings']; exact h.findings⟩

theorem find {f f' : Finding} (h : Alike l base base' s s') (hf : f.Alike l f') :
    Alike l base base' (s.find f) (s'.find f') := by
  obtain ⟨hscopes,new,new',hnew,hnew',hall⟩ := h
  exact ⟨hscopes,f :: new,f' :: new',congrArg (f :: ·) hnew,congrArg (f' :: ·) hnew',.cons hf hall⟩

theorem fail {t t' : Token} (h : Alike l base base' s s') (fault : StaticFault) (ht : l.token t t') :
    Alike l base base' (s.fail fault t) (s'.fail fault t') :=
  h.find (.fault (.static ht))

theorem refer {i i' : ExprId} {t t' : Token} (h : Alike l base base' s s') (hi : l.id i i')
    (ht : l.token t t') : Alike l base base' (s.refer i t) (s'.refer i' t') := by
  rw [Scoping.refer,Scoping.refer,h.scopes,l.lexeme ht]
  exact h.find (.occurrence hi)

theorem mark (h : Alike l base base' s s') (name : String) (defined : Bool) :
    Alike l base base' (s.mark name defined) (s'.mark name defined) :=
  h.rescope (by simp [h.scopes]) (by simp) (by simp)

theorem enter (h : Alike l base base' s s') : Alike l base base' s.enter s'.enter :=
  h.rescope (by simp [h.scopes]) rfl rfl

theorem leave (h : Alike l base base' s s') : Alike l base base' s.leave s'.leave :=
  h.rescope (by simp [h.scopes]) rfl rfl

theorem define {t t' : Token} (h : Alike l base base' s s') (ht : l.token t t') :
    Alike l base base' (s.define t) (s'.define t') := by
  rw [Scoping.define,Scoping.define,l.lexeme ht]
  exact h.mark _ _

theorem declare {t t' : Token} (h : Alike l base base' s s') (ht : l.token t t') :
    Alike l base base' (s.declare t) (s'.declare t') := by
  have hmark := h.mark t.lexeme false
  simp only [Scoping.declare,h.scopes,l.lexeme ht]
  split
  · exact h
  · split
    · exact hmark.fail _ ht
    · exact hmark

theorem inOwnInitializer (h : Alike l base base' s s') (name : String) :
    s'.inOwnInitializer name = s.inOwnInitializer name := by
  simp only [Scoping.inOwnInitializer,h.scopes]

mutual

theorem expr {around : Surroundings} : ∀ {e e' : Expr}, e.Alike l e' → ∀ {s s' : Scoping},
    Alike l base base' s s' → Alike l base base' (Scoping.expr around e s) (Scoping.expr around e' s')
  | _,_,.literal,_,_,h => h
  | _,_,.grouping he,_,_,h => (expr he h :)
  | _,_,.unary _ he,_,_,h => (expr he h :)
  | _,_,.binary ha _ hb,_,_,h | _,_,.logical ha _ hb,_,_,h => expr hb (expr ha h)
  | _,_,.ternary ha hb hc,_,_,h => expr hc (expr hb (expr ha h))
  | _,_,.variable hi ht,_,_,h => by
    simp only [Scoping.expr,h.inOwnInitializer,l.lexeme ht]
    split
    · exact (h.fail _ ht).refer hi ht
    · exact h.refer hi ht
  | _,_,.assign hi ht he,_,_,h => (expr he h).refer hi ht
  | _,_,.call he _ hes,_,_,h => exprs hes (expr he h)
  | _,_,.get he _,_,_,h => (expr he h :)
  | _,_,.set ha _ hb,_,_,h => expr ha (expr hb h)
  | _,_,.this hi ht,_,_,h => by
    simp only [Scoping.expr]
    split
    · exact h.fail _ ht
    · exact h.refer hi ht
    · exact h.refer hi ht
  | _,_,.super hi ht _,_,_,h => by
    simp only [Scoping.expr]
    split
    · exact h.fail _ ht
    · exact h.fail _ ht
    · exact h.refer hi ht

theorem exprs {around : Surroundings} : ∀ {es es' : List Expr}, Expr.ListAlike l es es' →
    ∀ {s s' : Scoping}, Alike l base base' s s' →
      Alike l base base' (Scoping.exprs around es s) (Scoping.exprs around es' s')
  | _,_,.nil,_,_,h => h
  | _,_,.cons he hes,_,_,h => exprs hes (expr he h)

end

theorem optional {around : Surroundings} {e e' : Option Expr} (he : Expr.OptionAlike l e e')
    (h : Alike l base base' s s') :
    Alike l base base' (Scoping.optional around e s) (Scoping.optional around e' s') := by
  cases he with
  | none => exact h
  | some he => exact expr he h

theorem checkSuperclass {t t' : Token} {e e' : Expr} (ht : l.token t t') (he : e.Alike l e')
    (h : Alike l base base' s s') :
    Alike l base base' (Scoping.checkSuperclass t e s) (Scoping.checkSuperclass t' e' s') := by
  cases he with
  | «variable» _ hname =>
    simp only [Scoping.checkSuperclass,l.lexeme ht,l.lexeme hname]
    split
    · exact h.fail _ hname
    · exact h
  | _ => exact h

theorem parameters {ts ts' : List Token} (hts : List.Forall₂ l.token ts ts')
    (h : Alike l base base' s s') :
    Alike l base base' (ts.foldl (fun s p => (s.declare p).define p) s)
      (ts'.foldl (fun s p => (s.declare p).define p) s') := by
  induction hts generalizing s s' with
  | nil => exact h
  | cons ht _ ih => exact ih ((h.declare ht).define ht)

mutual

theorem stmt {around : Surroundings} : ∀ {b b' : Stmt}, b.Alike l b' → ∀ {s s' : Scoping},
    Alike l base base' s s' → Alike l base base' (Scoping.stmt around b s) (Scoping.stmt around b' s')
  | _,_,.expression he,_,_,h | _,_,.print he,_,_,h => expr he h
  | _,_,.var ht he,_,_,h => (optional he (h.declare ht)).define ht
  | _,_,.block hs,_,_,h => (stmts hs h.enter).leave
  | _,_,.branch he ha hb,_,_,h => stmt? hb (stmt ha (expr he h))
  | _,_,.loop he hb,_,_,h => (stmt hb (expr he h) :)
  | _,_,.function hd,_,_,h => function hd ((h.declare hd.name).define hd.name)
  | _,_,@Stmt.Alike.return _ t t' _ _ ht he,s,s',h => by
    have hkeyword : Alike l base base'
        (if around.inFunction = .none then s.fail .returnOutsideFunction t else s)
        (if around.inFunction = .none then s'.fail .returnOutsideFunction t' else s') := by
      split
      · exact h.fail _ ht
      · exact h
    cases he with
    | none => exact hkeyword
    | some he =>
      refine expr he ?_
      split
      · exact hkeyword.fail _ ht
      · exact hkeyword
  | _,_,.class ht he hds,_,_,h => by
    have hname := (h.declare ht).define ht
    simp only [Scoping.stmt,l.lexeme ht]
    cases he with
    | none => exact (functions hds (hname.enter.mark "this" true)).leave.find .classDone
    | some he =>
      have hparent : Alike l base base' (Scoping.expr { around with inClass := .subclass } _ _)
          (Scoping.expr { around with inClass := .subclass } _ _) := expr he (checkSuperclass ht he hname)
      exact (functions hds ((hparent.enter.mark "super" true).enter.mark "this" true)).leave.leave.find
        .classDone

theorem stmt? {around : Surroundings} : ∀ {b b' : Option Stmt}, Stmt.OptionAlike l b b' →
    ∀ {s s' : Scoping}, Alike l base base' s s' →
      Alike l base base' (Scoping.stmt? around b s) (Scoping.stmt? around b' s')
  | _,_,.none,_,_,h => h
  | _,_,.some hb,_,_,h => stmt hb h

theorem stmts {around : Surroundings} : ∀ {bs bs' : List Stmt}, Stmt.ListAlike l bs bs' →
    ∀ {s s' : Scoping}, Alike l base base' s s' →
      Alike l base base' (Scoping.stmts around bs s) (Scoping.stmts around bs' s')
  | _,_,.nil,_,_,h => h
  | _,_,.cons hb hbs,_,_,h => stmts hbs (stmt hb h)

theorem function {around : Surroundings} {context : FunctionContext} :
    ∀ {d d' : FunctionDecl}, Stmt.FunctionAlike l d d' → ∀ {s s' : Scoping}, Alike l base base' s s' →
      Alike l base base' (Scoping.function around context d s) (Scoping.function around context d' s')
  | _,_,.mk _ hts hs,_,_,h => (stmts hs (parameters hts h.enter)).leave

theorem functions {around : Surroundings} : ∀ {ds ds' : List FunctionDecl},
    Stmt.FunctionsAlike l ds ds' → ∀ {s s' : Scoping}, Alike l base base' s s' →
      Alike l base base' (Scoping.functions around ds s) (Scoping.functions around ds' s')
  | _,_,.nil,_,_,h => h
  | _,_,.cons hd hds,_,_,h => by
    simp only [Scoping.functions,l.lexeme hd.name]
    exact functions hds (function hd h)

end

end Scoping.Alike

/-! ### Programs -/

/-- The same name at the same depth, for identities that are alike. -/
def Likeness.Occurrence (l : Likeness) (o o' : ExprId × String × Option Nat) : Prop :=
  l.id o.1 o'.1 ∧ o'.2 = o.2

theorem Finding.Alike.errors {found found' : List Finding}
    (h : List.Forall₂ (Finding.Alike l) found found') :
    List.Forall₂ (Error.Alike l) (found.filterMap Finding.fault?) (found'.filterMap Finding.fault?) := by
  refine List.rel_filterMap (fun f f' hf => ?_) h
  cases hf with
  | fault h => exact .some h
  | _ => exact .none

theorem Finding.Alike.occurrences {found found' : List Finding}
    (h : List.Forall₂ (Finding.Alike l) found found') :
    List.Forall₂ l.Occurrence (found.filterMap Finding.occurrence?)
      (found'.filterMap Finding.occurrence?) := by
  refine List.rel_filterMap (fun f f' hf => ?_) h
  cases hf with
  | occurrence h => exact .some ⟨h,rfl⟩
  | _ => exact .none

theorem Scoping.stmts_append (around : Surroundings) (p q : List Stmt) (s : Scoping) :
    stmts around (p ++ q) s = stmts around q (stmts around p s) := by
  induction p generalizing s with
  | nil => rfl
  | cons b p ih => exact ih (stmt around b s)

/-- There is no local scope at top level. -/
theorem Scoping.stmts_top {around : Surroundings} (p : List Stmt) {s : Scoping}
    (hproper : Stmt.ListProper p) (h : s.scopes = []) : (stmts around p s).scopes = [] := by
  induction p generalizing s with
  | nil => exact h
  | cons b p ih =>
    refine ih hproper.2 ?_
    rw [stmt_scopes b s hproper.1,h]
    cases b.declared? <;> rfl

/-- A program is resolved in the same way whether or not another one stands in front of it. -/
theorem resolve_append_alike {p q q' : List Stmt} (hp : Stmt.ListProper p) (h : Stmt.ListAlike l q q') :
    ∃ found, (resolve (p ++ q')).findings = (resolve p).findings ++ found ∧
      List.Forall₂ (Finding.Alike l) (resolve q).findings found := by
  let first := Scoping.stmts ⟨.none,.none⟩ p ⟨[],[]⟩
  have hfirst : first = ⟨[],first.findings⟩ := by
    have htop : first.scopes = [] := Scoping.stmts_top p hp rfl
    rw [← htop]
  have hstmts : Scoping.Alike l [] first.findings (Scoping.stmts ⟨.none,.none⟩ q ⟨[],[]⟩)
      (Scoping.stmts ⟨.none,.none⟩ q' ⟨[],first.findings⟩) := .stmts h (.start [])
  obtain ⟨-,new,new',hnew,hnew',hall⟩ := hstmts
  refine ⟨new'.reverse,?_,?_⟩
  · rw [← hfirst] at hnew'
    rw [resolve,resolve,Scoping.stmts_append,hnew',List.reverse_append]
  · rw [resolve,hnew,List.append_nil]
    exact List.rel_reverse hall

theorem resolve_alike {p p' : List Stmt} (h : Stmt.ListAlike l p p') :
    List.Forall₂ (Finding.Alike l) (resolve p).findings (resolve p').findings := by
  obtain ⟨found,hfound,hall⟩ := resolve_append_alike (p := []) trivial h
  exact hfound ▸ hall

end Lox

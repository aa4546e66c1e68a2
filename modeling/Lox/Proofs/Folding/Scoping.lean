import Lox.Proofs.Alike.Scoping
import Lox.Proofs.Alike.Shape
import Lox.Proofs.Folding.Tree
import Lox.Proofs.Scoping.Context

/-! Trees of one shape, the first of which stands in more scopes. The depths that scoping finds for them differ
by the scopes that are folded away. -/
namespace Lox

/-- The table has the depths that have been found. -/
def Distances.Has (d : Distances) (found : List Finding) : Prop :=
  ∀ i x depth, .occurrence i x depth ∈ found → d.find? i = depth

theorem Distances.Has.mono {d : Distances} {found found' : List Finding} (h : d.Has found) (hsub : found' ⊆ found) :
    d.Has found' :=
  fun i x depth hi => h i x depth (hsub hi)

/-- The distances that two programs run with are those that scoping has found, and it has found no error in the
first program. -/
structure Tables.Seen (τ : Tables) (found found' : List Finding) : Prop where
  left : τ.left.Has found
  right : τ.right.Has found'
  accepted : ∀ e, .fault e ∉ found

theorem Tables.Seen.mono {τ : Tables} {found found' sub sub' : List Finding} (h : τ.Seen found found')
    (hleft : sub ⊆ found) (hright : sub' ⊆ found') : τ.Seen sub sub' :=
  ⟨h.left.mono hleft,h.right.mono hright,fun e he => h.accepted e (hleft he)⟩

/-- Static scopes of the first program, which has some without names between those of the second one. -/
inductive Inserted : List Bool → List (Bindings Bool) → List (Bindings Bool) → Prop
  | same {bs} : Inserted [] bs bs
  | kept {flags bs bs'} (b : Bindings Bool) : Inserted flags bs bs' → Inserted (false :: flags) (b :: bs) (b :: bs')
  | spare {flags bs bs'} : Inserted flags bs bs' → Inserted (true :: flags) (∅ :: bs) bs'

namespace Inserted

variable {flags : List Bool} {bs bs' : List (Bindings Bool)} {x : String}

/-- A scope that a name is declared in is kept. -/
theorem kept_of_declared (h : flags.headD false = true → some x = none) : flags.headD false = false := by
  cases hflag : flags.headD false with
  | false => rfl
  | true => exact absurd (h hflag) (Option.some_ne_none x)

/-- A name is found as far out but for the scopes without names, or in neither program. -/
theorem depth? (h : Inserted flags bs bs') (x : String) :
    (Scoping.depth? bs x = none ∧ Scoping.depth? bs' x = none) ∨
    ∃ d, Scoping.depth? bs x = some d ∧ flags.getD d false = false ∧
      Scoping.depth? bs' x = some (folded flags d) := by
  induction h with
  | @same bs =>
    cases hd : Scoping.depth? bs x with
    | none => exact .inl ⟨rfl,rfl⟩
    | some d => exact .inr ⟨d,rfl,rfl,by rw [folded_of_kept (by simp)]⟩
  | @kept flags bs bs' b _ ih =>
    simp only [Scoping.depth?_cons]
    split
    · exact .inr ⟨0,rfl,rfl,rfl⟩
    · obtain ⟨hleft,hright⟩ | ⟨d,hleft,hkept,hright⟩ := ih
      · exact .inl ⟨by rw [hleft]; rfl,by rw [hright]; rfl⟩
      · exact .inr ⟨d + 1,by rw [hleft]; rfl,hkept,by rw [hright]; rfl⟩
  | @spare flags bs bs' _ ih =>
    rw [Scoping.depth?_cons,Bindings.contains_emptyCollection,if_neg Bool.false_ne_true]
    obtain ⟨hleft,hright⟩ | ⟨d,hleft,hkept,hright⟩ := ih
    · exact .inl ⟨by rw [hleft]; rfl,hright⟩
    · exact .inr ⟨d + 1,by rw [hleft]; rfl,hkept,hright⟩

theorem marked (h : Inserted flags bs bs') (hflag : flags.headD false = false) (x : String) (defined : Bool) :
    Inserted flags (Scoping.marked x defined bs) (Scoping.marked x defined bs') := by
  cases h with
  | same => exact .same
  | kept b h => exact .kept _ h
  | spare => cases hflag

theorem markedIf (h : Inserted flags bs bs') {name : Option String}
    (hname : flags.headD false = true → name = none) :
    Inserted flags (Scoping.markedIf name bs) (Scoping.markedIf name bs') := by
  cases name with
  | none => exact h
  | some name => exact h.marked (kept_of_declared hname) name true

theorem parameters (h : Inserted flags bs bs') (hflag : flags.headD false = false) (ts : List Token) :
    Inserted flags (ts.foldl (fun bs p => Scoping.marked p.lexeme true bs) bs)
      (ts.foldl (fun bs p => Scoping.marked p.lexeme true bs) bs') := by
  induction ts generalizing bs bs' with
  | nil => exact h
  | cons t ts ih => exact ih (h.marked hflag _ _)

end Inserted

namespace Scoping

variable {τ : Tables} {flags : List Bool} {around : Surroundings}

/-- Trees of one shape mark the same name. -/
theorem Alike.stmt_scopes {l : Likeness} {b b' : Stmt} (h : b.Alike l b') (hproper : b.Proper) (s : Scoping) :
    (Scoping.stmt around b' s).scopes = markedIf b.declared? s.scopes := by
  have halike : Alike l s.findings s.findings (Scoping.stmt around b s) (Scoping.stmt around b' s) :=
    .stmt h (.start s.scopes)
  exact halike.scopes.trans (Scoping.stmt_scopes b s hproper)

/-- An occurrence of a name is recorded by both passes. -/
theorem agree {s s' : Scoping} {i i' : ExprId} {x : String} {found found' : List Finding}
    (hscopes : Inserted flags s.scopes s'.scopes) (hseen : τ.Seen found found')
    (hleft : .occurrence i x (depth? s.scopes x) ∈ found)
    (hright : .occurrence i' x (depth? s'.scopes x) ∈ found') : τ.Agree flags i i' := by
  have hi := hseen.left i x _ hleft
  have hi' := hseen.right i' x _ hright
  obtain ⟨hnone,hnone'⟩ | ⟨d,hd,hkept,hd'⟩ := hscopes.depth? x
  · exact .global (hi.trans hnone) (hi'.trans hnone')
  · exact .local (hi.trans hd) hkept (hi'.trans hd')

theorem agree_refer {s s' : Scoping} {i i' : ExprId} {t : Token} (hscopes : Inserted flags s.scopes s'.scopes)
    (hseen : τ.Seen (s.refer i t).findings (s'.refer i' t).findings) : τ.Agree flags i i' :=
  agree hscopes hseen List.mem_cons_self List.mem_cons_self

theorem read_mem (i : ExprId) (t : Token) (s : Scoping) :
    .occurrence i t.lexeme (depth? s.scopes t.lexeme) ∈ (expr around (.variable i t) s).findings := by
  simp only [expr]
  split <;> exact List.mem_cons_self

/-! ### Expressions -/

section

variable {s s' : Scoping} {e e' : Expr} {es es' : List Expr}

theorem seen_expr (hseen : τ.Seen (expr around e s).findings (expr around e' s').findings) :
    τ.Seen s.findings s'.findings :=
  hseen.mono (expr_findings e s) (expr_findings e' s')

theorem seen_exprs (hseen : τ.Seen (exprs around es s).findings (exprs around es' s').findings) :
    τ.Seen s.findings s'.findings :=
  hseen.mono (exprs_findings es s) (exprs_findings es' s')

theorem inserted_expr (hscopes : Inserted flags s.scopes s'.scopes) :
    Inserted flags (expr around e s).scopes (expr around e' s').scopes := by
  rw [expr_scopes,expr_scopes]
  exact hscopes

end

mutual

theorem expr_folds : ∀ {e e' : Expr}, e.Alike .shape e' → ∀ {s s' : Scoping}, Inserted flags s.scopes s'.scopes →
    τ.Seen (expr around e s).findings (expr around e' s').findings → e.Folds τ flags e'
  | _,_,.literal,_,_,_,_ => .literal
  | _,_,.grouping h,_,_,hscopes,hseen => .grouping (expr_folds h hscopes hseen)
  | _,_,.unary rfl h,_,_,hscopes,hseen => .unary (expr_folds h hscopes hseen)
  | _,_,.binary ha rfl hb,_,_,hscopes,hseen =>
    .binary (expr_folds ha hscopes (seen_expr hseen)) (expr_folds hb (inserted_expr hscopes) hseen)
  | _,_,.logical ha rfl hb,_,_,hscopes,hseen =>
    .logical (expr_folds ha hscopes (seen_expr hseen)) (expr_folds hb (inserted_expr hscopes) hseen)
  | _,_,.ternary ha hb hc,_,_,hscopes,hseen =>
    .ternary (expr_folds ha hscopes (seen_expr (seen_expr hseen)))
      (expr_folds hb (inserted_expr hscopes) (seen_expr hseen))
      (expr_folds hc (inserted_expr (inserted_expr hscopes)) hseen)
  | _,_,.variable _ rfl,_,_,hscopes,hseen => .variable (agree hscopes hseen (read_mem _ _ _) (read_mem _ _ _))
  | _,_,.assign _ rfl h,_,_,hscopes,hseen =>
    .assign (agree_refer (inserted_expr hscopes) hseen)
      (expr_folds h hscopes (hseen.mono (List.subset_cons_self _ _) (List.subset_cons_self _ _)))
  | _,_,.call h rfl hs,_,_,hscopes,hseen =>
    .call (expr_folds h hscopes (seen_exprs hseen)) (exprs_folds hs (inserted_expr hscopes) hseen)
  | _,_,.get h rfl,_,_,hscopes,hseen => .get (expr_folds h hscopes hseen)
  | _,_,.set ha rfl hb,_,_,hscopes,hseen =>
    .set (expr_folds ha (inserted_expr hscopes) hseen) (expr_folds hb hscopes (seen_expr hseen))
  | _,_,.this _ rfl,_,_,hscopes,hseen => by
    simp only [expr] at hseen
    split at hseen
    · exact absurd List.mem_cons_self (hseen.accepted _)
    · exact .this (agree_refer hscopes hseen)
    · exact .this (agree_refer hscopes hseen)
  | _,_,.super _ rfl rfl,_,_,hscopes,hseen => by
    simp only [expr] at hseen
    split at hseen
    · exact absurd List.mem_cons_self (hseen.accepted _)
    · exact absurd List.mem_cons_self (hseen.accepted _)
    · exact .super (agree_refer hscopes hseen)

theorem exprs_folds : ∀ {es es' : List Expr}, Expr.ListAlike .shape es es' → ∀ {s s' : Scoping},
    Inserted flags s.scopes s'.scopes → τ.Seen (exprs around es s).findings (exprs around es' s').findings →
      Expr.ListFolds τ flags es es'
  | _,_,.nil,_,_,_,_ => .nil
  | _,_,.cons h hs,_,_,hscopes,hseen =>
    .cons (expr_folds h hscopes (seen_exprs hseen)) (exprs_folds hs (inserted_expr hscopes) hseen)

end

theorem optional_folds {e e' : Option Expr} (h : Expr.OptionAlike .shape e e') {s s' : Scoping}
    (hscopes : Inserted flags s.scopes s'.scopes)
    (hseen : τ.Seen (optional around e s).findings (optional around e' s').findings) :
    Expr.OptionFolds τ flags e e' := by
  cases h with
  | none => exact .none
  | some h => exact .some (expr_folds h hscopes hseen)

/-! ### Statements -/

section

variable {s s' : Scoping} {b b' : Stmt} {bs bs' : List Stmt} {ds ds' : List FunctionDecl}

theorem seen_stmt (hseen : τ.Seen (stmt around b s).findings (stmt around b' s').findings) :
    τ.Seen s.findings s'.findings :=
  hseen.mono (stmt_findings b s) (stmt_findings b' s')

theorem seen_stmt? {b b' : Option Stmt}
    (hseen : τ.Seen (stmt? around b s).findings (stmt? around b' s').findings) : τ.Seen s.findings s'.findings :=
  hseen.mono (stmt?_findings b s) (stmt?_findings b' s')

theorem seen_stmts (hseen : τ.Seen (stmts around bs s).findings (stmts around bs' s').findings) :
    τ.Seen s.findings s'.findings :=
  hseen.mono (stmts_findings bs s) (stmts_findings bs' s')

theorem seen_functions (hseen : τ.Seen (functions around ds s).findings (functions around ds' s').findings) :
    τ.Seen s.findings s'.findings :=
  hseen.mono (functions_findings ds s) (functions_findings ds' s')

theorem inserted_stmt (h : b.Alike .shape b') (hproper : b.Proper)
    (hname : flags.headD false = true → b.declared? = none) (hscopes : Inserted flags s.scopes s'.scopes) :
    Inserted flags (stmt around b s).scopes (stmt around b' s').scopes := by
  rw [stmt_scopes b s hproper,Alike.stmt_scopes h hproper]
  exact hscopes.markedIf hname

theorem inserted_declare (hflag : flags.headD false = false) (t : Token)
    (hscopes : Inserted flags s.scopes s'.scopes) : Inserted flags (s.declare t).scopes (s'.declare t).scopes := by
  rw [declare_scopes,declare_scopes]
  exact hscopes.marked hflag _ _

theorem inserted_define (hflag : flags.headD false = false) (t : Token)
    (hscopes : Inserted flags s.scopes s'.scopes) : Inserted flags (s.define t).scopes (s'.define t).scopes := by
  rw [define_scopes,define_scopes]
  exact hscopes.marked hflag _ _

theorem inserted_introduce (hflag : flags.headD false = false) (t : Token)
    (hscopes : Inserted flags s.scopes s'.scopes) :
    Inserted flags ((s.declare t).define t).scopes ((s'.declare t).define t).scopes :=
  inserted_define hflag t (inserted_declare hflag t hscopes)

/-- A scope is entered that has one name. -/
theorem inserted_keyword (x : String) (hscopes : Inserted flags s.scopes s'.scopes) :
    Inserted (false :: flags) (s.enter.mark x true).scopes (s'.enter.mark x true).scopes := by
  rw [mark_scopes,mark_scopes]
  exact Inserted.marked (.kept ∅ hscopes) rfl _ _

end

mutual

/-- The innermost scope of the first program is kept if the statement declares a name in it. -/
theorem stmt_folds : ∀ {around : Surroundings} {flags : List Bool} {b b' : Stmt}, b.Alike .shape b' → b.Proper →
    (flags.headD false = true → b.declared? = none) → ∀ {s s' : Scoping}, Inserted flags s.scopes s'.scopes →
      τ.Seen (stmt around b s).findings (stmt around b' s').findings → b.Folds τ flags b'
  | _,_,_,_,.expression h,_,_,_,_,hscopes,hseen => .expression (expr_folds h hscopes hseen)
  | _,_,_,_,.print h,_,_,_,_,hscopes,hseen => .print (expr_folds h hscopes hseen)
  | _,_,_,_,@Stmt.Alike.var _ t _ _ _ rfl h,_,hname,_,_,hscopes,hseen => by
    have hflag := Inserted.kept_of_declared hname
    simp only [stmt,define_findings] at hseen
    exact .var hflag (optional_folds h (inserted_declare hflag t hscopes) hseen)
  | _,_,_,_,.block h,hproper,_,_,_,hscopes,hseen => .block (stmts_folds h hproper rfl (.kept ∅ hscopes) hseen)
  | _,_,_,_,.branch he ha hb,⟨_,⟨hthen,hplain⟩,helse⟩,_,_,_,hscopes,hseen =>
    have hthen_scopes := inserted_expr hscopes
    .branch (expr_folds he hscopes (seen_stmt (seen_stmt? hseen)))
      (stmt_folds ha hthen (fun _ => hplain) hthen_scopes (seen_stmt? hseen))
      (stmt?_folds hb helse (inserted_stmt ha hthen (fun _ => hplain) hthen_scopes) hseen)
  | _,_,_,_,.loop he h,⟨_,hproper,hplain⟩,_,_,_,hscopes,hseen =>
    .loop (expr_folds he hscopes (seen_stmt hseen))
      (stmt_folds h hproper (fun _ => hplain) (inserted_expr hscopes) hseen)
  | _,_,_,_,@Stmt.Alike.function _ d d' h,hproper,hname,_,_,hscopes,hseen => by
    have hflag := Inserted.kept_of_declared hname
    have hsame : d'.name = d.name := h.name
    simp only [stmt,hsame] at hseen
    exact .function hflag (function_folds h hproper (inserted_introduce hflag d.name hscopes) hseen)
  | _,_,_,_,.return rfl h,_,_,s,s',hscopes,hseen => by
    cases h with
    | none => exact .return .none
    | some h =>
      refine .return (.some (expr_folds h ?_ hseen))
      simp only [apply_ite scopes,fail_scopes,ite_self]
      exact hscopes
  | _,flags,_,_,@Stmt.Alike.class _ t _ _ _ ds ds' rfl he hds,⟨_,_,hproper⟩,hname,s,s',hscopes,hseen => by
    have hflag := Inserted.kept_of_declared hname
    have hnamed := inserted_introduce hflag t hscopes
    cases he with
    | none =>
      have hfound := hseen.mono (List.subset_cons_self _ _) (List.subset_cons_self _ _)
      exact .class hflag .none (functions_folds hds hproper (inserted_keyword "this" hnamed) hfound)
    | @some e e' he =>
      have hchecked : Inserted flags (checkSuperclass t e ((s.declare t).define t)).scopes
          (checkSuperclass t e' ((s'.declare t).define t)).scopes := by
        rw [checkSuperclass_scopes,checkSuperclass_scopes]
        exact hnamed
      have hfound := hseen.mono (List.subset_cons_self _ _) (List.subset_cons_self _ _)
      have hparent := seen_functions hfound
      simp only [mark_findings,enter_findings] at hparent
      exact .class hflag (.some (expr_folds he hchecked hparent)) (functions_folds hds hproper
        (inserted_keyword "this" (inserted_keyword "super" (inserted_expr hchecked))) hfound)

theorem stmt?_folds : ∀ {around : Surroundings} {flags : List Bool} {b b' : Option Stmt},
    Stmt.OptionAlike .shape b b' → Stmt.OptionProper b → ∀ {s s' : Scoping}, Inserted flags s.scopes s'.scopes →
      τ.Seen (stmt? around b s).findings (stmt? around b' s').findings → Stmt.OptionFolds τ flags b b'
  | _,_,_,_,.none,_,_,_,_,_ => .none
  | _,_,_,_,.some h,⟨hproper,hplain⟩,_,_,hscopes,hseen =>
    .some (stmt_folds h hproper (fun _ => hplain) hscopes hseen)

theorem stmts_folds : ∀ {around : Surroundings} {flags : List Bool} {bs bs' : List Stmt},
    Stmt.ListAlike .shape bs bs' → Stmt.ListProper bs → flags.headD false = false → ∀ {s s' : Scoping},
      Inserted flags s.scopes s'.scopes → τ.Seen (stmts around bs s).findings (stmts around bs' s').findings →
        Stmt.ListFolds τ flags bs bs'
  | _,_,_,_,.nil,_,_,_,_,_,_ => .nil
  | _,_,_,_,.cons h hs,⟨hproper,hproper'⟩,hflag,_,_,hscopes,hseen =>
    have hname hmark := absurd (hflag.symm.trans hmark) Bool.false_ne_true
    .cons (stmt_folds h hproper hname hscopes (seen_stmts hseen))
      (stmts_folds hs hproper' hflag (inserted_stmt h hproper hname hscopes) hseen)

theorem function_folds : ∀ {around : Surroundings} {context : FunctionContext} {flags : List Bool}
    {d d' : FunctionDecl}, Stmt.FunctionAlike .shape d d' → Stmt.FunctionProper d → ∀ {s s' : Scoping},
      Inserted flags s.scopes s'.scopes →
        τ.Seen (function around context d s).findings (function around context d' s').findings →
          Stmt.FunctionFolds τ flags d d'
  | _,_,_,_,_,.mk rfl hts h,⟨_,_,hproper⟩,s,s',hscopes,hseen => by
    obtain rfl := Likeness.shape_tokens hts
    refine .mk (stmts_folds h hproper rfl ?_ hseen)
    rw [parameters_scopes,parameters_scopes]
    exact Inserted.parameters (.kept ∅ hscopes) rfl _

theorem functions_folds : ∀ {around : Surroundings} {flags : List Bool} {ds ds' : List FunctionDecl},
    Stmt.FunctionsAlike .shape ds ds' → Stmt.ListFunctionProper ds → ∀ {s s' : Scoping},
      Inserted flags s.scopes s'.scopes →
        τ.Seen (functions around ds s).findings (functions around ds' s').findings →
          Stmt.FunctionsFold τ flags ds ds'
  | _,_,_,_,.nil,_,_,_,_,_ => .nil
  | _,_,_,_,@Stmt.FunctionsAlike.cons _ d d' _ _ h hs,⟨hproper,hproper'⟩,_,_,hscopes,hseen => by
    have hsame : d'.name = d.name := h.name
    simp only [functions,hsame] at hseen
    refine .cons (function_folds h hproper hscopes (seen_functions hseen))
      (functions_folds hs hproper' ?_ hseen)
    rw [function_scopes,function_scopes]
    exact hscopes

end

end Scoping
end Lox

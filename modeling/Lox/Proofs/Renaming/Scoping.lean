import Lox.Proofs.Renaming.Tree
import Lox.Proofs.Scoping.Table

/-! Scoping finds the same depths, and no error, where a variable has another name. -/
namespace Lox

/-- The same bindings, where one name may have taken the place of another one. -/
def Bindings.Renamed {α : Type} (ρ : Renaming) (flag : Bool) (b b' : Bindings α) : Prop :=
  ∀ x, (flag = true → x ≠ ρ.new) → b'.find? (ρ.name flag x) = b.find? x

variable {ρ : Renaming} {flags : List Bool} {flag : Bool} {x y : String}

/-- Names that differ from the new one are kept apart. -/
theorem Renaming.name_inj (hx : flag = true → x ≠ ρ.new) (hy : flag = true → y ≠ ρ.new) :
    ρ.name flag x = ρ.name flag y ↔ x = y := by
  cases flag with
  | false => rfl
  | true =>
    have hxnew := hx rfl
    have hynew := hy rfl
    simp only [name,true_and]
    grind

namespace Bindings.Renamed

variable {α : Type} {b b' : Bindings α}

theorem refl (b : Bindings α) : b.Renamed ρ false b := fun _ _ => rfl

theorem empty : (∅ : Bindings α).Renamed ρ flag ∅ := fun _ _ => rfl

theorem insert (h : b.Renamed ρ flag b') (hx : flag = true → x ≠ ρ.new) (v : α) :
    (b.insert x v).Renamed ρ flag (b'.insert (ρ.name flag x) v) := by
  intro y hy
  simp only [find?_insert,Renaming.name_inj hy hx,h y hy]

theorem contains (h : b.Renamed ρ flag b') (hx : flag = true → x ≠ ρ.new) :
    b'.contains (ρ.name flag x) = b.contains x := by
  rw [Bindings.contains,Bindings.contains,h x hx]

end Bindings.Renamed

/-! ### Scopes -/

/-- Scopes and those in their places. Inside the scope of the variable, the new name has not been declared. -/
inductive ScopesRenamed (ρ : Renaming) : List Bool → List (Bindings Bool) → List (Bindings Bool) → Prop
  | nil : ScopesRenamed ρ [] [] []
  | cons {flag flags b b' bs bs'} (hb : b.Renamed ρ flag b') (hnew : true ∈ flag :: flags → b.find? ρ.new = none)
    (hold : flag = true → b'.find? ρ.old = none) (hbs : ScopesRenamed ρ flags bs bs') :
    ScopesRenamed ρ (flag :: flags) (b :: bs) (b' :: bs')

/-- A name is not found in a scope under its new name either, if it is not there. -/
theorem Bindings.Renamed.absent {b b' : Bindings Bool} (hb : b.Renamed ρ flag b')
    (hnew : true ∈ flag :: flags → b.find? ρ.new = none) (hold : flag = true → b'.find? ρ.old = none)
    (hx : true ∈ flag :: flags → x ≠ ρ.new) (hnone : b.find? x = none) {renamed : Bool}
    (hrenamed : renamed = true → true ∈ flags) : b'.find? (ρ.name renamed x) = none := by
  by_cases hxold : x = ρ.old
  · subst hxold
    cases renamed with
    | false =>
      cases flag with
      | false => exact (hb ρ.old (by simp)).trans hnone
      | true => exact hold rfl
    | true =>
      have hmem : true ∈ flag :: flags := List.mem_cons_of_mem _ (hrenamed rfl)
      cases flag with
      | false =>
        have hname : ρ.name true ρ.old = ρ.new := by simp [Renaming.name]
        rw [hname]
        exact (hb ρ.new (by simp)).trans (hnew hmem)
      | true => exact (hb ρ.old fun _ => hx hmem).trans hnone
  · have hkept := hb x fun h => hx (by simp [h])
    rw [Renaming.name_of_ne hxold] at hkept ⊢
    exact hkept.trans hnone

namespace ScopesRenamed

variable {bs bs' : List (Bindings Bool)}

/-- The mark of the scope in which a name is found. -/
def found (flags : List Bool) (bs : List (Bindings Bool)) (x : String) : Bool :=
  (Scoping.depth? bs x).elim false fun d => flags.getD d false

theorem found_mem (h : found flags bs x = true) : true ∈ flags := by
  rw [found] at h
  cases hd : Scoping.depth? bs x with
  | none => simp [hd] at h
  | some d =>
    rw [hd] at h
    exact Renaming.mem_of_getD h

theorem depth?_cons_pos {b : Bindings Bool} (h : b.contains x = true) : Scoping.depth? (b :: bs) x = some 0 := by
  simp [Scoping.depth?,List.findIdx?_cons,h]

theorem depth?_cons_neg {b : Bindings Bool} (h : b.contains x = false) :
    Scoping.depth? (b :: bs) x = (Scoping.depth? bs x).map (· + 1) := by
  simp [Scoping.depth?,List.findIdx?_cons,h]

theorem found_cons_pos {b : Bindings Bool} (h : b.contains x = true) :
    found (flag :: flags) (b :: bs) x = flag := by
  simp [found,depth?_cons_pos h]

theorem found_cons_neg {b : Bindings Bool} (h : b.contains x = false) :
    found (flag :: flags) (b :: bs) x = found flags bs x := by
  simp only [found,depth?_cons_neg h]
  cases Scoping.depth? bs x <;> rfl

theorem contains_eq_false {b : Bindings Bool} (h : b.contains x = false) : b.find? x = none := by
  simpa [Bindings.contains] using h

/-- An occurrence has its new name exactly if it is found in a scope that is marked. -/
theorem lexeme_found {i : ExprId} {t t' : Token} (ht : ρ.Gives flags (ρ.refers flags i) t t')
    (hbound : ρ.bound i = Scoping.depth? bs t.lexeme) : t'.lexeme = ρ.name (found flags bs t.lexeme) t.lexeme := by
  rw [ht.lexeme,Renaming.refers,hbound,found]

theorem depth? (h : ScopesRenamed ρ flags bs bs') (hx : true ∈ flags → x ≠ ρ.new) :
    Scoping.depth? bs' (ρ.name (found flags bs x) x) = Scoping.depth? bs x := by
  induction h with
  | nil => rfl
  | @cons flag flags b b' bs bs' hb hnew hold hbs ih =>
    cases hcontains : b.contains x with
    | true =>
      have hcontains' : b'.contains (ρ.name flag x) = true :=
        (hb.contains fun hflag => hx (by simp [hflag])).trans hcontains
      rw [found_cons_pos hcontains,depth?_cons_pos hcontains,depth?_cons_pos hcontains']
    | false =>
      have hmem : found flags bs x = true → true ∈ flags := found_mem
      have habsent := hb.absent hnew hold hx (contains_eq_false hcontains) hmem
      have hcontains' : b'.contains (ρ.name (found flags bs x) x) = false := by
        rw [Bindings.contains,habsent]
        rfl
      rw [found_cons_neg hcontains,depth?_cons_neg hcontains,depth?_cons_neg hcontains',
        ih fun hlater => hx (List.mem_cons_of_mem _ hlater)]

/-- Whether the innermost scope has a name whose initializer is not finished. -/
theorem inOwnInitializer (h : ScopesRenamed ρ flags bs bs') (hx : true ∈ flags → x ≠ ρ.new)
    (findings findings' : List Finding) :
    Scoping.inOwnInitializer ⟨bs',findings'⟩ (ρ.name (found flags bs x) x) =
      Scoping.inOwnInitializer ⟨bs,findings⟩ x := by
  cases h with
  | nil => rfl
  | @cons flag flags b b' bs bs' hb hnew hold hbs =>
    suffices hfind : b'.find? (ρ.name (found (flag :: flags) (b :: bs) x) x) = b.find? x by
      simp only [Scoping.inOwnInitializer,hfind]
    cases hcontains : b.contains x with
    | true => exact found_cons_pos hcontains ▸ hb x fun hflag => hx (by simp [hflag])
    | false =>
      have hnone := contains_eq_false hcontains
      have hmem : found flags bs x = true → true ∈ flags := found_mem
      rw [found_cons_neg hcontains,hnone]
      exact hb.absent hnew hold hx hnone hmem

/-- A name is marked in the innermost scope. -/
theorem mark (h : ScopesRenamed ρ flags bs bs') (hold : ρ.new ≠ ρ.old) (hx : true ∈ flags → x ≠ ρ.new)
    (defined : Bool) :
    ScopesRenamed ρ flags (Scoping.marked x defined bs)
      (Scoping.marked (ρ.name (flags.headD false) x) defined bs') := by
  cases h with
  | nil => exact .nil
  | @cons flag flags b b' bs bs' hb hnew hgone hbs =>
    refine .cons (hb.insert (fun hflag => hx (by simp [hflag])) defined) (fun hmem => ?_) (fun hflag => ?_) hbs
    · rw [Bindings.find?_insert,if_neg (Ne.symm (hx hmem))]
      exact hnew hmem
    · have hne : ρ.old ≠ ρ.name flag x := by
        subst hflag
        by_cases hxold : x = ρ.old
        · simp [Renaming.name,hxold,Ne.symm hold]
        · rw [Renaming.name_of_ne hxold]
          exact Ne.symm hxold
      exact (Bindings.find?_insert _ _ _ _).trans ((if_neg hne).trans (hgone hflag))

end ScopesRenamed

/-! ### Findings -/

/-- The same finding about an occurrence that may have another name. Errors have no counterpart. -/
inductive Finding.Renamed : Finding → Finding → Prop
  | occurrence {i name name' depth} : Finding.Renamed (.occurrence i name depth) (.occurrence i name' depth)
  | classDone {name} : Finding.Renamed (.classDone name) (.classDone name)

namespace Scoping

/-- So far the occurrences have their distances, and there is no error. -/
structure Settled (ρ : Renaming) (s : Scoping) : Prop where
  bound : ∀ i x depth, .occurrence i x depth ∈ s.findings → ρ.bound i = depth
  accepted : ∀ e, .fault e ∉ s.findings

/-- Two passes at the same point. -/
structure Paired (ρ : Renaming) (flags : List Bool) (s s' : Scoping) : Prop where
  scopes : ScopesRenamed ρ flags s.scopes s'.scopes
  findings : List.Forall₂ Finding.Renamed s.findings s'.findings

/-- Two passes stay at the same point as long as the first one finds no error. -/
def Renamed (ρ : Renaming) (flags : List Bool) (s s' : Scoping) : Prop := s.Settled ρ → s.Paired ρ flags s'

theorem Settled.of_findings {s t : Scoping} (h : t.Settled ρ) (hfindings : s.findings ⊆ t.findings) :
    s.Settled ρ :=
  ⟨fun i x depth hi => h.bound i x depth (hfindings hi),fun e he => h.accepted e (hfindings he)⟩

namespace Renamed

variable {s s' : Scoping} {i : ExprId} {t t' : Token}

/-- The scopes change in the same way. -/
theorem rescope {r r' : Scoping} {flags' : List Bool} (h : Renamed ρ flags s s')
    (hscopes : ScopesRenamed ρ flags s.scopes s'.scopes → ScopesRenamed ρ flags' r.scopes r'.scopes)
    (hfindings : r.findings = s.findings) (hfindings' : r'.findings = s'.findings) :
    Renamed ρ flags' r r' := by
  intro hr
  have hs := h (hr.of_findings (hfindings ▸ List.Subset.refl _))
  exact ⟨hscopes hs.scopes,by rw [hfindings,hfindings']; exact hs.findings⟩

/-- The first pass has found an error. -/
theorem failed {e : Error} (h : .fault e ∈ s.findings) : Renamed ρ flags s s' :=
  fun hs => (hs.accepted e h).elim

theorem fail (s s' : Scoping) (fault : StaticFault) (t : Token) : Renamed ρ flags (s.fail fault t) s' :=
  failed List.mem_cons_self

theorem find {f f' : Finding} (h : Renamed ρ flags s s') (hf : f.Renamed f') :
    Renamed ρ flags (s.find f) (s'.find f') := by
  intro hr
  have hs := h (hr.of_findings (List.subset_cons_self _ _))
  exact ⟨hs.scopes,.cons hf hs.findings⟩

theorem classDone (h : Renamed ρ flags s s') (name : String) :
    Renamed ρ flags (s.find (.classDone name)) (s'.find (.classDone name)) :=
  h.find .classDone

/-- An occurrence is found at the same depth, with its new name if it refers to a scope that is marked. -/
theorem refer (h : Renamed ρ flags s s') (ht : ρ.Gives flags (ρ.refers flags i) t t') :
    Renamed ρ flags (s.refer i t) (s'.refer i t') := by
  intro hr
  have hs := h (hr.of_findings (List.subset_cons_self _ _))
  have hbound := hr.bound i t.lexeme _ List.mem_cons_self
  have hdepth : depth? s'.scopes t'.lexeme = depth? s.scopes t.lexeme := by
    rw [ScopesRenamed.lexeme_found ht hbound]
    exact hs.scopes.depth? ht.fresh
  refine ⟨hs.scopes,.cons ?_ hs.findings⟩
  rw [hdepth]
  exact .occurrence

theorem enter (h : Renamed ρ flags s s') (flag : Bool) : Renamed ρ (flag :: flags) s.enter s'.enter :=
  h.rescope (fun hs => .cons .empty (fun _ => rfl) (fun _ => rfl) hs) rfl rfl

theorem leave (h : Renamed ρ (flag :: flags) s s') : Renamed ρ flags s.leave s'.leave := by
  refine h.rescope (fun hs => ?_) rfl rfl
  rw [leave_scopes,leave_scopes]
  generalize s.scopes = bs at hs
  generalize s'.scopes = bs' at hs
  cases hs with
  | cons _ _ _ hbs => exact hbs

theorem mark (hρ : ρ.new ≠ ρ.old) (h : Renamed ρ flags s s') (hx : true ∈ flags → x ≠ ρ.new) (defined : Bool) :
    Renamed ρ flags (s.mark x defined) (s'.mark (ρ.name (flags.headD false) x) defined) := by
  refine h.rescope (fun hs => ?_) (by simp) (by simp)
  rw [mark_scopes,mark_scopes]
  exact hs.mark hρ hx defined

/-- The scope of a receiver or a superclass is never that of the variable. -/
theorem enter_keyword (hρ : ρ.new ≠ ρ.old) (h : Renamed ρ flags s s') (hx : x ≠ ρ.new) :
    Renamed ρ (false :: flags) (s.enter.mark x true) (s'.enter.mark x true) :=
  (h.enter false).mark hρ (fun _ => hx) true

theorem define (hρ : ρ.new ≠ ρ.old) (h : Renamed ρ flags s s') (ht : ρ.Gives flags (flags.headD false) t t') :
    Renamed ρ flags (s.define t) (s'.define t') := by
  rw [Scoping.define,Scoping.define,ht.lexeme]
  exact h.mark hρ ht.fresh true

theorem declare (hρ : ρ.new ≠ ρ.old) (h : Renamed ρ flags s s') (ht : ρ.Gives flags (flags.headD false) t t') :
    Renamed ρ flags (s.declare t) (s'.declare t') := by
  intro hr
  have hs := h (hr.of_findings (s.declare_findings t))
  have hmark := h.mark hρ ht.fresh false
  obtain ⟨scopes,findings⟩ := s
  obtain ⟨scopes',findings'⟩ := s'
  obtain ⟨hscopes,hfindings⟩ := hs
  cases hscopes with
  | nil => exact ⟨.nil,hfindings⟩
  | @cons flag flags b b' bs bs' hb hnew hold hbs =>
    have hcontains : b'.contains t'.lexeme = b.contains t.lexeme := by
      rw [ht.lexeme]
      exact hb.contains fun hflag => ht.fresh (by simp_all)
    simp only [Scoping.declare,hcontains] at hr ⊢
    split at hr
    next => exact (hr.accepted _ List.mem_cons_self).elim
    next hfresh =>
      rw [if_neg hfresh,if_neg hfresh,ht.lexeme]
      exact hmark hr

theorem introduce (hρ : ρ.new ≠ ρ.old) (h : Renamed ρ flags s s')
    (ht : ρ.Gives flags (flags.headD false) t t') :
    Renamed ρ flags ((s.declare t).define t) ((s'.declare t').define t') :=
  (h.declare hρ ht).define hρ ht

/-- A variable is read. -/
theorem read (h : Renamed ρ flags s s') (ht : ρ.Gives flags (ρ.refers flags i) t t') (around : Surroundings) :
    Renamed ρ flags (Scoping.expr around (.variable i t) s) (Scoping.expr around (.variable i t') s') := by
  intro hr
  have hs := h (hr.of_findings (expr_findings _ s))
  have hbound : ρ.bound i = depth? s.scopes t.lexeme := by
    refine hr.bound i t.lexeme _ ?_
    simp only [Scoping.expr]
    split <;> exact List.mem_cons_self
  have hown : s'.inOwnInitializer t'.lexeme = s.inOwnInitializer t.lexeme := by
    rw [ScopesRenamed.lexeme_found ht hbound]
    exact hs.scopes.inOwnInitializer ht.fresh s.findings s'.findings
  simp only [Scoping.expr,hown] at hr ⊢
  split at hr
  next => exact (hr.accepted _ (List.mem_cons_of_mem _ List.mem_cons_self)).elim
  next hnot =>
    rw [if_neg hnot,if_neg hnot]
    exact h.refer ht hr

/-! ### Expressions and statements -/

variable {around : Surroundings}

mutual

theorem expr : ∀ {e e' : Expr}, e.Renamed ρ flags e' → ∀ {s s' : Scoping}, Renamed ρ flags s s' →
    Renamed ρ flags (Scoping.expr around e s) (Scoping.expr around e' s')
  | _,_,.literal,_,_,h => h
  | _,_,.grouping he,_,_,h => (expr he h :)
  | _,_,.unary he,_,_,h => (expr he h :)
  | _,_,.binary ha hb,_,_,h | _,_,.logical ha hb,_,_,h => expr hb (expr ha h)
  | _,_,.ternary ha hb hc,_,_,h => expr hc (expr hb (expr ha h))
  | _,_,.variable ht,_,_,h => h.read ht around
  | _,_,.assign ht he,_,_,h => (expr he h).refer ht
  | _,_,.call he hes,_,_,h => exprs hes (expr he h)
  | _,_,.get he,_,_,h => (expr he h :)
  | _,_,.set ha hb,_,_,h => expr ha (expr hb h)
  | _,_,.this ht,_,_,h => by
    simp only [Scoping.expr]
    split
    · exact .fail _ _ _ _
    · exact h.refer ht
    · exact h.refer ht
  | _,_,.super ht,_,_,h => by
    simp only [Scoping.expr]
    split
    · exact .fail _ _ _ _
    · exact .fail _ _ _ _
    · exact h.refer ht

theorem exprs : ∀ {es es' : List Expr}, Expr.ListRenamed ρ flags es es' → ∀ {s s' : Scoping},
    Renamed ρ flags s s' → Renamed ρ flags (Scoping.exprs around es s) (Scoping.exprs around es' s')
  | _,_,.nil,_,_,h => h
  | _,_,.cons he hes,_,_,h => exprs hes (expr he h)

end

theorem optional {e e' : Option Expr} (he : Expr.OptionRenamed ρ flags e e') (h : Renamed ρ flags s s') :
    Renamed ρ flags (Scoping.optional around e s) (Scoping.optional around e' s') := by
  cases he with
  | none => exact h
  | some he => exact expr he h

/-- A class that does not inherit from itself does not do so under the new name either. -/
theorem checkSuperclass {u : Token} {e e' : Expr} (hu : ρ.Gives flags (flags.headD false) u u)
    (he : e.Renamed ρ flags e') (h : Renamed ρ flags s s') :
    Renamed ρ flags (Scoping.checkSuperclass u e s) (Scoping.checkSuperclass u e' s') := by
  cases he with
  | @«variable» i t t' ht =>
    intro hr
    simp only [Scoping.checkSuperclass] at hr ⊢
    split at hr
    next => exact (hr.accepted _ List.mem_cons_self).elim
    next hne =>
      have hne' : t'.lexeme ≠ u.lexeme := by
        intro heq
        cases hflag : ρ.refers flags i with
        | false => exact hne (by rw [← heq,ht.lexeme,hflag,Renaming.name_false])
        | true =>
          have hmem : true ∈ flags := Renaming.mem_of_refers hflag
          by_cases hold : t.lexeme = ρ.old
          · have hnew : t'.lexeme = ρ.new := by simp [ht.lexeme,hflag,Renaming.name,hold]
            exact hu.fresh hmem (heq.symm.trans hnew)
          · exact hne (by rw [← heq,ht.lexeme,Renaming.name_of_ne hold])
      rw [if_neg hne,if_neg hne']
      exact h hr
  | _ => exact h

theorem parameters (hρ : ρ.new ≠ ρ.old) {ts ts' : List Token}
    (hts : List.Forall₂ (ρ.Gives flags (flags.headD false)) ts ts') (h : Renamed ρ flags s s') :
    Renamed ρ flags (ts.foldl (fun s p => (s.declare p).define p) s)
      (ts'.foldl (fun s p => (s.declare p).define p) s') := by
  induction hts generalizing s s' with
  | nil => exact h
  | cons ht _ ih => exact ih (h.introduce hρ ht)

mutual

theorem stmt (hρ : ρ.Apt) : ∀ {flags : List Bool} {b b' : Stmt} {around : Surroundings}, b.Renamed ρ flags b' →
    ∀ {s s' : Scoping}, Renamed ρ flags s s' →
      Renamed ρ flags (Scoping.stmt around b s) (Scoping.stmt around b' s')
  | _,_,_,_,.expression he,_,_,h | _,_,_,_,.print he,_,_,h => expr he h
  | _,_,_,_,.var ht he,_,_,h => (optional he (h.declare hρ.ne ht)).define hρ.ne ht
  | _,_,_,_,.block hs,_,_,h => (stmts hρ hs (h.enter _)).leave
  | _,_,_,_,.branch he ha hb,_,_,h => stmt? hρ hb (stmt hρ ha (expr he h))
  | _,_,_,_,.loop he hb,_,_,h => (stmt hρ hb (expr he h) :)
  | _,_,_,_,.function ht hd,_,_,h => function hρ hd (h.introduce hρ.ne (hd.name.symm ▸ ht))
  | flags,_,_,around,@Stmt.Renamed.return _ _ t _ _ he,s,s',h => by
    have hkeyword : Renamed ρ flags (if around.inFunction = .none then s.fail .returnOutsideFunction t else s)
        (if around.inFunction = .none then s'.fail .returnOutsideFunction t else s') := by
      split
      · exact .fail _ _ _ _
      · exact h
    cases he with
    | none => exact hkeyword
    | some he =>
      refine expr he ?_
      split
      · exact .fail _ _ _ _
      · exact hkeyword
  | _,_,_,around,.class ht he hds,_,_,h => by
    have hname := h.introduce hρ.ne ht
    cases he with
    | none => exact classDone (leave (functions hρ hds (hname.enter_keyword hρ.ne hρ.this.2))) _
    | some he =>
      have hparent : Renamed ρ _ (Scoping.expr { around with inClass := .subclass } _ _)
          (Scoping.expr { around with inClass := .subclass } _ _) := expr he (checkSuperclass ht he hname)
      have hsuper := hparent.enter_keyword hρ.ne hρ.super.2
      exact classDone (leave (leave (functions hρ hds (hsuper.enter_keyword hρ.ne hρ.this.2)))) _

theorem stmt? (hρ : ρ.Apt) : ∀ {flags : List Bool} {b b' : Option Stmt} {around : Surroundings},
    Stmt.OptionRenamed ρ flags b b' → ∀ {s s' : Scoping}, Renamed ρ flags s s' →
      Renamed ρ flags (Scoping.stmt? around b s) (Scoping.stmt? around b' s')
  | _,_,_,_,.none,_,_,h => h
  | _,_,_,_,.some hb,_,_,h => stmt hρ hb h

theorem stmts (hρ : ρ.Apt) : ∀ {flags : List Bool} {bs bs' : List Stmt} {around : Surroundings},
    Stmt.ListRenamed ρ flags bs bs' → ∀ {s s' : Scoping}, Renamed ρ flags s s' →
      Renamed ρ flags (Scoping.stmts around bs s) (Scoping.stmts around bs' s')
  | _,_,_,_,.nil,_,_,h => h
  | _,_,_,_,.cons hb hbs,_,_,h => stmts hρ hbs (stmt hρ hb h)

theorem function (hρ : ρ.Apt) : ∀ {flags : List Bool} {d d' : FunctionDecl} {around : Surroundings}
    {context : FunctionContext}, Stmt.FunctionRenamed ρ flags d d' → ∀ {s s' : Scoping}, Renamed ρ flags s s' →
      Renamed ρ flags (Scoping.function around context d s) (Scoping.function around context d' s')
  | _,_,_,_,_,.mk hts hs,_,_,h => (stmts hρ hs (parameters hρ.ne hts (h.enter _))).leave

theorem functions (hρ : ρ.Apt) : ∀ {flags : List Bool} {ds ds' : List FunctionDecl} {around : Surroundings},
    Stmt.FunctionsRenamed ρ flags ds ds' → ∀ {s s' : Scoping}, Renamed ρ flags s s' →
      Renamed ρ flags (Scoping.functions around ds s) (Scoping.functions around ds' s')
  | _,_,_,_,.nil,_,_,h => h
  | _,_,_,_,.cons hd hds,_,_,h => by
    simp only [Scoping.functions,hd.name]
    exact functions hρ hds (function hρ hd h)

end

end Renamed
end Scoping

/-! ### Programs -/

/-- A program with a new name for a variable has the same occurrences at the same depths, and no error. -/
theorem resolve_renamed {p p' : List Stmt} (hρ : ρ.Apt) (h : Stmt.ListRenamed ρ [] p p')
    (haccepted : (resolve p).errors = [])
    (hbound : ∀ i name depth, .occurrence i name depth ∈ findings p → ρ.bound i = depth) :
    List.Forall₂ Finding.Renamed (resolve p).findings (resolve p').findings := by
  have hstart : Scoping.Renamed ρ [] ⟨[],[]⟩ ⟨[],[]⟩ := fun _ => ⟨.nil,.nil⟩
  have hstmts : Scoping.Renamed ρ [] (Scoping.stmts ⟨.none,.none⟩ p ⟨[],[]⟩)
      (Scoping.stmts ⟨.none,.none⟩ p' ⟨[],[]⟩) := .stmts hρ h hstart
  exact List.rel_reverse (hstmts ⟨hbound,accepted_iff.mp haccepted⟩).findings

theorem Finding.Renamed.errors {found found' : List Finding} (h : List.Forall₂ Finding.Renamed found found') :
    found'.filterMap Finding.fault? = [] := by
  induction h with
  | nil => rfl
  | cons hf _ ih => cases hf <;> exact ih

/-- The identities and depths of occurrences, whatever their names. -/
def Resolution.depths (r : Resolution) : List (ExprId × Option Nat) :=
  r.occurrences.map fun o => (o.1,o.2.2)

theorem Finding.Renamed.depths {found found' : List Finding} (h : List.Forall₂ Finding.Renamed found found') :
    (found'.filterMap Finding.occurrence?).map (fun o => (o.1,o.2.2)) =
      (found.filterMap Finding.occurrence?).map fun o => (o.1,o.2.2) := by
  induction h with
  | nil => rfl
  | cons hf _ ih =>
    cases hf with
    | occurrence => exact congrArg (_ :: ·) ih
    | classDone => exact ih

end Lox

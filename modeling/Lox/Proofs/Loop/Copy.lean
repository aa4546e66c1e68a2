import Lox.Proofs.Loop.Desugar
import Lox.Proofs.Scoping.Table

/-! Clauses with identities of their own. There are distances for all that scoping finds in them. -/
namespace Lox

/-! ### Trees with new identities -/

namespace Numbered

variable {j : Nat} {ids : List ExprId} {a b x y : List (ExprId × Place)}

/-- The identities of two trees, one for each occurrence in the trees that they are copies of. -/
theorem join (hx : Numbered j (j + a.length) (x.map Prod.fst))
    (hy : Numbered (j + a.length) (j + a.length + b.length) (y.map Prod.fst)) :
    Numbered j (j + (a ++ b).length) ((x ++ y).map Prod.fst) := by
  rw [List.length_append,List.map_append,← Nat.add_assoc]
  exact hx.append hy (Nat.le_add_right _ _) (Nat.le_add_right _ _)

end Numbered

mutual

/-- Every tree has a copy with an identity of its own for each occurrence, from `j` on. -/
theorem Expr.exists_copy (here : Place) : ∀ (e : Expr) (j : Nat), ∃ e', e.Alike .shape e' ∧
    ∀ here', Numbered j (j + (e.occurrences here).length) ((e'.occurrences here').map Prod.fst)
  | .literal value,_ => ⟨.literal value,.literal,fun _ => .nil⟩
  | .grouping inner,j => by
    obtain ⟨e',h,hids⟩ := inner.exists_copy here j
    exact ⟨.grouping e',.grouping h,hids⟩
  | .unary operator right,j => by
    obtain ⟨e',h,hids⟩ := right.exists_copy here j
    exact ⟨.unary operator e',.unary rfl h,hids⟩
  | .binary left operator right,j => by
    obtain ⟨a,ha,hleft⟩ := left.exists_copy here j
    obtain ⟨b,hb,hright⟩ := right.exists_copy here (j + (left.occurrences here).length)
    exact ⟨.binary a operator b,.binary ha rfl hb,fun here' => (hleft here').join (hright here')⟩
  | .logical left operator right,j => by
    obtain ⟨a,ha,hleft⟩ := left.exists_copy here j
    obtain ⟨b,hb,hright⟩ := right.exists_copy here (j + (left.occurrences here).length)
    exact ⟨.logical a operator b,.logical ha rfl hb,fun here' => (hleft here').join (hright here')⟩
  | .ternary condition ifTrue ifFalse,j => by
    obtain ⟨a,ha,hcondition⟩ := condition.exists_copy here j
    obtain ⟨b,hb,htrue⟩ := ifTrue.exists_copy here (j + (condition.occurrences here).length)
    obtain ⟨c,hc,hfalse⟩ := ifFalse.exists_copy here
      (j + (condition.occurrences here).length + (ifTrue.occurrences here).length)
    exact ⟨.ternary a b c,.ternary ha hb hc,
      fun here' => (hcondition here').join ((htrue here').join (hfalse here'))⟩
  | .variable _ name,j => ⟨.variable (.numbered j) name,.variable trivial rfl,fun _ => .single⟩
  | .assign _ name value,j => by
    obtain ⟨e',h,hids⟩ := value.exists_copy here j
    let id : ExprId := .numbered (j + (value.occurrences here).length)
    exact ⟨.assign id name e',.assign trivial rfl h,fun here' => (hids here').join .single⟩
  | .call callee paren arguments,j => by
    obtain ⟨e',h,hcallee⟩ := callee.exists_copy here j
    obtain ⟨es',hs,harguments⟩ := Expr.exists_listCopy here arguments (j + (callee.occurrences here).length)
    exact ⟨.call e' paren es',.call h rfl hs,fun here' => (hcallee here').join (harguments here')⟩
  | .get object name,j => by
    obtain ⟨e',h,hids⟩ := object.exists_copy here j
    exact ⟨.get e' name,.get h rfl,hids⟩
  | .set object name value,j => by
    obtain ⟨b,hb,hvalue⟩ := value.exists_copy here j
    obtain ⟨a,ha,hobject⟩ := object.exists_copy here (j + (value.occurrences here).length)
    exact ⟨.set a name b,.set ha rfl hb,fun here' => (hvalue here').join (hobject here')⟩
  | .this _ keyword,j => ⟨.this (.numbered j) keyword,.this trivial rfl,fun _ => .single⟩
  | .super _ keyword method,j =>
    ⟨.super (.numbered j) keyword method,.super trivial rfl rfl,fun _ => .single⟩

theorem Expr.exists_listCopy (here : Place) : ∀ (es : List Expr) (j : Nat), ∃ es', Expr.ListAlike .shape es es' ∧
    ∀ here', Numbered j (j + (Expr.listOccurrences here es).length) ((Expr.listOccurrences here' es').map Prod.fst)
  | [],_ => ⟨[],.nil,fun _ => .nil⟩
  | e :: es,j => by
    obtain ⟨e',h,hids⟩ := e.exists_copy here j
    obtain ⟨es',hs,hids'⟩ := Expr.exists_listCopy here es (j + (e.occurrences here).length)
    exact ⟨e' :: es',.cons h hs,fun here' => (hids here').join (hids' here')⟩

end

theorem Expr.exists_optionCopy (here : Place) (e : Option Expr) (j : Nat) : ∃ e', Expr.OptionAlike .shape e e' ∧
    ∀ here', Numbered j (j + (Expr.optionOccurrences here e).length)
      ((Expr.optionOccurrences here' e').map Prod.fst) := by
  cases e with
  | none => exact ⟨none,.none,fun _ => .nil⟩
  | some e =>
    obtain ⟨e',h,hids⟩ := e.exists_copy here j
    exact ⟨some e',.some h,hids⟩

namespace Stmt

mutual

theorem exists_copy (sites : List Site) : ∀ (s : Stmt) (j : Nat), ∃ s', s.Alike .shape s' ∧
    ∀ sites', Numbered j (j + (s.occurrences sites).length) ((s'.occurrences sites').map Prod.fst)
  | .expression e,j => by
    obtain ⟨e',h,hids⟩ := e.exists_copy ⟨sites,none⟩ j
    exact ⟨.expression e',.expression h,fun sites' => hids ⟨sites',none⟩⟩
  | .print e,j => by
    obtain ⟨e',h,hids⟩ := e.exists_copy ⟨sites,none⟩ j
    exact ⟨.print e',.print h,fun sites' => hids ⟨sites',none⟩⟩
  | .var name initializer,j => by
    obtain ⟨e',h,hids⟩ := Expr.exists_optionCopy ⟨sites,some name.lexeme⟩ initializer j
    exact ⟨.var name e',.var rfl h,fun sites' => hids ⟨sites',some name.lexeme⟩⟩
  | .block body,j => by
    obtain ⟨body',h,hids⟩ := exists_listCopy (.block body :: sites) body j
    exact ⟨.block body',.block h,fun sites' => hids (.block body' :: sites')⟩
  | .branch condition thenBranch elseBranch,j => by
    obtain ⟨e',he,hcondition⟩ := condition.exists_copy ⟨sites,none⟩ j
    obtain ⟨a,ha,hthen⟩ := thenBranch.exists_copy sites (j + (condition.occurrences ⟨sites,none⟩).length)
    obtain ⟨b,hb,helse⟩ := exists_optionCopy sites elseBranch
      (j + (condition.occurrences ⟨sites,none⟩).length + (thenBranch.occurrences sites).length)
    exact ⟨.branch e' a b,.branch he ha hb,
      fun sites' => (hcondition ⟨sites',none⟩).join ((hthen sites').join (helse sites'))⟩
  | .loop condition body,j => by
    obtain ⟨e',he,hcondition⟩ := condition.exists_copy ⟨sites,none⟩ j
    obtain ⟨s',h,hbody⟩ := body.exists_copy sites (j + (condition.occurrences ⟨sites,none⟩).length)
    exact ⟨.loop e' s',.loop he h,fun sites' => (hcondition ⟨sites',none⟩).join (hbody sites')⟩
  | .function d,j => by
    obtain ⟨d',h,hids⟩ := exists_functionCopy sites d j
    exact ⟨.function d',.function h,hids⟩
  | .return keyword value,j => by
    obtain ⟨e',h,hids⟩ := Expr.exists_optionCopy ⟨sites,none⟩ value j
    exact ⟨.return keyword e',.return rfl h,fun sites' => hids ⟨sites',none⟩⟩
  | .class name none methods,j => by
    obtain ⟨ds',hs,hids⟩ := exists_functionsCopy sites methods j
    exact ⟨.class name none ds',.class rfl .none hs,hids⟩
  | .class name (some parent) methods,j => by
    obtain ⟨e',h,hparent⟩ := parent.exists_copy ⟨sites,none⟩ j
    obtain ⟨ds',hs,hmethods⟩ := exists_functionsCopy (.superclass name methods :: sites) methods
      (j + (parent.occurrences ⟨sites,none⟩).length)
    exact ⟨.class name (some e') ds',.class rfl (.some h) hs,
      fun sites' => (hparent ⟨sites',none⟩).join (hmethods (.superclass name ds' :: sites'))⟩

theorem exists_optionCopy (sites : List Site) : ∀ (s : Option Stmt) (j : Nat), ∃ s', OptionAlike .shape s s' ∧
    ∀ sites', Numbered j (j + (optionOccurrences sites s).length) ((optionOccurrences sites' s').map Prod.fst)
  | none,_ => ⟨none,.none,fun _ => .nil⟩
  | some s,j => by
    obtain ⟨s',h,hids⟩ := s.exists_copy sites j
    exact ⟨some s',.some h,hids⟩

theorem exists_listCopy (sites : List Site) : ∀ (ss : List Stmt) (j : Nat), ∃ ss', ListAlike .shape ss ss' ∧
    ∀ sites', Numbered j (j + (listOccurrences sites ss).length) ((listOccurrences sites' ss').map Prod.fst)
  | [],_ => ⟨[],.nil,fun _ => .nil⟩
  | s :: ss,j => by
    obtain ⟨s',h,hids⟩ := s.exists_copy sites j
    obtain ⟨ss',hs,hids'⟩ := exists_listCopy sites ss (j + (s.occurrences sites).length)
    exact ⟨s' :: ss',.cons h hs,fun sites' => (hids sites').join (hids' sites')⟩

theorem exists_functionCopy (sites : List Site) : ∀ (d : FunctionDecl) (j : Nat), ∃ d', FunctionAlike .shape d d' ∧
    ∀ sites', Numbered j (j + (functionOccurrences sites d).length) ((functionOccurrences sites' d').map Prod.fst)
  | ⟨name,parameters,body⟩,j => by
    obtain ⟨body',h,hids⟩ := exists_listCopy (.call ⟨name,parameters,body⟩ :: sites) body j
    exact ⟨⟨name,parameters,body'⟩,.mk rfl (List.forall₂_same.mpr fun _ _ => rfl) h,
      fun sites' => hids (.call ⟨name,parameters,body'⟩ :: sites')⟩

theorem exists_functionsCopy (sites : List Site) : ∀ (ds : List FunctionDecl) (j : Nat),
    ∃ ds', FunctionsAlike .shape ds ds' ∧
      ∀ sites', Numbered j (j + (methodOccurrences sites ds).length) ((methodOccurrences sites' ds').map Prod.fst)
  | [],_ => ⟨[],.nil,fun _ => .nil⟩
  | d :: ds,j => by
    obtain ⟨d',h,hids⟩ := exists_functionCopy (.receiver d :: sites) d j
    obtain ⟨ds',hs,hids'⟩ := exists_functionsCopy sites ds
      (j + (functionOccurrences (.receiver d :: sites) d).length)
    exact ⟨d' :: ds',.cons h hs,fun sites' => (hids (.receiver d' :: sites')).join (hids' sites')⟩

end

end Stmt

/-! ### Tables -/

/-- A table that has none of the identities can be given the depths that have been found for them. -/
theorem Distances.exists_has {found : List Finding} {d : Distances} (honce : (found.filterMap Finding.id?).Nodup)
    (hfresh : ∀ i ∈ found.filterMap Finding.id?, d.find? i = none) :
    ∃ d' : Distances, d'.Has found ∧ ∀ i, i ∉ found.filterMap Finding.id? → d'.find? i = d.find? i := by
  have hmem {i : ExprId} {x : String} {depth : Option Nat} (h : .occurrence i x depth ∈ found) :
      i ∈ found.filterMap Finding.id? := List.mem_filterMap.mpr ⟨_,h,rfl⟩
  refine ⟨d.insertAll (found.filterMap Finding.occurrence?),fun i x depth hi => ?_,fun i hi => ?_⟩
  · cases hd : (d.insertAll (found.filterMap Finding.occurrence?)).find? i with
    | some n =>
      rcases insertAll_from hd with hold | ⟨y,hnew⟩
      · rw [hfresh i (hmem hi)] at hold
        cases hold
      · have hsame := eq_of_mem_filterMap honce (Finding.mem_occurrences.mp hnew) hi rfl rfl
        exact (Finding.occurrence.inj hsame).2.2
    | none =>
      cases depth with
      | none => rfl
      | some n =>
        have hsome := insertAll_isSome (d := d) (.inr ⟨x,n,Finding.mem_occurrences.mpr hi⟩)
        rw [hd] at hsome
        cases hsome
  · refine insertAll_apart (fun o ho heq => hi ?_) d
    obtain ⟨j,x,depth⟩ := o
    obtain rfl : j = i := heq
    exact hmem (Finding.mem_occurrences.mp ho)

/-! ### Clauses -/

namespace ForClauses

variable {c : ForClauses}

theorem exists_condition {e : Option Expr} {e' : Expr}
    (h : (e.getD (.literal (.boolean true))).Alike .shape e') :
    ∃ condition, Expr.OptionAlike .shape e condition ∧ e' = condition.getD (.literal (.boolean true)) := by
  cases e with
  | none =>
    cases h
    exact ⟨none,.none,rfl⟩
  | some e => exact ⟨some e',.some h,rfl⟩

theorem exists_whole {s' : Stmt} (h : c.whole.Alike .shape s') : ∃ increment body,
    Expr.OptionAlike .shape c.increment increment ∧ c.body.Alike .shape body ∧
      ∀ initializer condition, s' = whole ⟨initializer,condition,increment,body⟩ := by
  rw [whole] at h
  generalize c.increment = e at h ⊢
  cases e with
  | none => exact ⟨none,s',.none,h,fun _ _ => rfl⟩
  | some e =>
    cases h with
    | block h =>
      obtain _ | ⟨hbody,_ | ⟨⟨he⟩,_ | _⟩⟩ := h
      exact ⟨some _,_,.some he,hbody,fun _ _ => rfl⟩

theorem exists_plain {s' : Stmt} (h : c.plain.Alike .shape s') : ∃ condition increment body,
    Expr.OptionAlike .shape c.condition condition ∧ Expr.OptionAlike .shape c.increment increment ∧
      c.body.Alike .shape body ∧ ∀ initializer, s' = plain ⟨initializer,condition,increment,body⟩ := by
  rw [plain] at h
  cases h with
  | loop he hbody =>
    obtain ⟨condition,hcondition,rfl⟩ := exists_condition he
    obtain ⟨increment,body,hincrement,hbody,heq⟩ := exists_whole hbody
    refine ⟨condition,increment,body,hcondition,hincrement,hbody,fun initializer => ?_⟩
    rw [heq initializer condition]
    rfl

/-- A statement of the same shape is made of a copy of the clauses. -/
theorem exists_desugared {s' : Stmt} (h : c.desugared.Alike .shape s') : ∃ c', c.Copy c' ∧ s' = desugared c' := by
  obtain ⟨initializer,condition,increment,body⟩ := c
  cases initializer with
  | none =>
    rw [desugared_of_none rfl] at h
    obtain ⟨condition',increment',body',hcondition,hincrement,hbody,heq⟩ := exists_plain h
    exact ⟨⟨none,condition',increment',body'⟩,⟨.none,hcondition,hincrement,hbody⟩,heq none⟩
  | some b =>
    rw [desugared_of_some rfl] at h
    cases h with
    | block h =>
      obtain _ | ⟨hb,_ | ⟨hplain,_ | _⟩⟩ := h
      obtain ⟨condition',increment',body',hcondition,hincrement,hbody,heq⟩ := exists_plain hplain
      refine ⟨⟨some _,condition',increment',body'⟩,⟨.some hb,hcondition,hincrement,hbody⟩,?_⟩
      rw [heq (some _)]
      rfl

/-- The clauses have a copy with an identity of its own for each occurrence, from `j` on. -/
theorem exists_copy (c : ForClauses) (sites : List Site) (j : Nat) : ∃ c', c.Copy c' ∧
    Numbered j (j + (c.desugared.occurrences sites).length) ((c'.desugared.occurrences sites).map Prod.fst) := by
  obtain ⟨s',halike,hids⟩ := c.desugared.exists_copy sites j
  obtain ⟨c',hcopy,rfl⟩ := exists_desugared halike
  exact ⟨c',hcopy,hids sites⟩

theorem resolvedRounds_passes (c : ForClauses) (around : Surroundings) (sites : List Site) (s : Scoping) :
    Scoping.Passes s (c.resolvedRounds around s) ((c.plain.occurrences sites).map Prod.fst) := by
  obtain ⟨initializer,condition,increment,body⟩ := c
  let tested := Scoping.optional around condition s
  have htested : Scoping.Passes s tested
      (((condition.getD (.literal (.boolean true))).occurrences ⟨sites,none⟩).map Prod.fst) := by
    have h := Scoping.optional_passes around ⟨sites,none⟩ condition s
    cases condition <;> exact h
  have hbody (sites : List Site) : Scoping.Passes tested
      ⟨s.scopes,(Scoping.stmt around body tested).findings⟩ ((body.occurrences sites).map Prod.fst) :=
    (Scoping.stmt_passes around sites body tested).between rfl rfl
  cases increment with
  | none =>
    simp only [plain,whole,Stmt.occurrences,List.map_append]
    exact htested.trans (hbody sites)
  | some e =>
    have hincrement := Scoping.expr_passes around ⟨.block [body,.expression e] :: sites,none⟩ e
      ⟨s.scopes,(Scoping.stmt around body tested).findings⟩
    simp only [plain,whole,Stmt.occurrences,Stmt.listOccurrences,List.map_append,List.append_nil]
    exact htested.trans ((hbody (.block [body,.expression e] :: sites)).trans hincrement)

/-- Each occurrence in the clauses is met once at most. -/
theorem resolved_passes (c : ForClauses) (around : Surroundings) (sites : List Site) (s : Scoping) :
    Scoping.Passes s (c.resolved around s) ((c.desugared.occurrences sites).map Prod.fst) := by
  obtain ⟨initializer,condition,increment,body⟩ := c
  cases initializer with
  | none => exact resolvedRounds_passes _ around sites s
  | some b =>
    let c : ForClauses := ⟨some b,condition,increment,body⟩
    let inside := Site.block [b,c.plain] :: sites
    have hboth := (Scoping.stmt_passes around inside b s.enter).trans (c.resolvedRounds_passes around inside _)
    rw [desugared_of_some rfl]
    simp only [Stmt.occurrences,Stmt.listOccurrences,List.map_append,List.append_nil]
    exact hboth.between rfl rfl

/-- A table that has no distances for the identities in the clauses can be given them. -/
theorem exists_distances {sites : List Site} {d : Distances}
    (honce : ((c.desugared.occurrences sites).map Prod.fst).Nodup)
    (hfresh : ∀ i ∈ (c.desugared.occurrences sites).map Prod.fst, d.find? i = none) (around : Surroundings)
    (scopes : List (Bindings Bool)) :
    ∃ d' : Distances, d'.Has (c.resolved around ⟨scopes,[]⟩).findings ∧
      ∀ i, i ∉ (c.desugared.occurrences sites).map Prod.fst → d'.find? i = d.find? i := by
  obtain ⟨found,hids,hsub⟩ := c.resolved_passes around sites ⟨scopes,[]⟩
  have hfound : (c.resolved around ⟨scopes,[]⟩).findings.filterMap Finding.id? = found.reverse :=
    hids.trans (List.append_nil _)
  have hmem {i : ExprId} (hi : i ∈ found.reverse) : i ∈ (c.desugared.occurrences sites).map Prod.fst :=
    hsub.subset (List.mem_reverse.mp hi)
  have hnodup : found.reverse.Nodup := (List.reverse_perm found).nodup_iff.mpr (honce.sublist hsub)
  rw [← hfound] at hnodup
  obtain ⟨d',hhas,hold⟩ := Distances.exists_has hnodup fun i hi => hfresh i (hmem (hfound ▸ hi))
  exact ⟨d',hhas,fun i hi => hold i fun hin => hi (hmem (hfound ▸ hin))⟩

end ForClauses
end Lox

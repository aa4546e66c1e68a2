import Lox.Proofs.Scoping.Covered
import Mathlib.Algebra.Group.Nat.Defs

/-! Each occurrence is found at most once: scoping meets the occurrences of a program in their order. -/
namespace Lox

namespace ExprId

theorem numbered_inj {i j : Nat} (hi : i < 2 ^ 32) (hj : j < 2 ^ 32) (h : numbered i = numbered j) :
    i = j := by
  have hnat := congrArg (·.index.toNat) h
  simp only [numbered,UInt32.toNat_ofNat'] at hnat
  rwa [Nat.mod_eq_of_lt hi,Nat.mod_eq_of_lt hj] at hnat

end ExprId

theorem Numbered.nodup {i j : Nat} {ids : List ExprId} (h : Numbered i j ids) (hj : j ≤ 2 ^ 32) :
    ids.Nodup := by
  obtain ⟨ks,rfl,hnodup,hks⟩ := h
  refine List.pairwise_map.mpr (List.Pairwise.imp_of_mem (fun {k l} hk hl hne heq => hne ?_) hnodup)
  have hkbound := (hks k hk).2
  have hlbound := (hks l hl).2
  exact ExprId.numbered_inj (by omega) (by omega) heq

theorem Numbered.not_mem {i j k : Nat} {ids : List ExprId} (h : Numbered i j ids) (hj : j ≤ 2 ^ 32)
    (hk : k < 2 ^ 32) (hout : k < i ∨ j ≤ k) : .numbered k ∉ ids := by
  intro hmem
  obtain ⟨l,hl,hl',heq⟩ := h.exists_number hmem
  have hsame := ExprId.numbered_inj hk (by omega) heq
  omega

namespace Finding

def id? : Finding → Option ExprId
  | occurrence id _ _ => some id
  | _ => none

end Finding

namespace Scoping

/-- The identities of the occurrences so far, newest first. -/
def ids (s : Scoping) : List ExprId := s.findings.filterMap Finding.id?

/-- Between two points some of the given identities are found, each once and in this order. -/
def Passes (s s' : Scoping) (ids : List ExprId) : Prop :=
  ∃ found : List ExprId, s'.ids = found.reverse ++ s.ids ∧ found.Sublist ids

namespace Passes

variable {s s' s'' : Scoping} {a b : List ExprId}

theorem of_ids (h : s'.ids = s.ids) : Passes s s' a := ⟨[],h,List.nil_sublist a⟩

theorem trans (h : Passes s s' a) (h' : Passes s' s'' b) : Passes s s'' (a ++ b) := by
  obtain ⟨found,hids,hsub⟩ := h
  obtain ⟨found',hids',hsub'⟩ := h'
  refine ⟨found ++ found',?_,hsub.append hsub'⟩
  rw [hids',hids,List.reverse_append,List.append_assoc]

theorem refer (s : Scoping) (id : ExprId) (name : Token) : Passes s (s.refer id name) [id] :=
  ⟨[id],by simp [ids,Finding.id?],List.Sublist.refl _⟩

/-- What is done before or after a pass may find anything but occurrences. -/
theorem between {t t' : Scoping} (h : Passes s s' a) (hs : s.ids = t.ids) (hs' : t'.ids = s'.ids) :
    Passes t t' a := by
  obtain ⟨found,hids,hsub⟩ := h
  exact ⟨found,by rw [hs',hids,hs],hsub⟩

end Passes

@[simp] theorem ids_fail (s : Scoping) (fault : StaticFault) (t : Token) :
    (s.fail fault t).ids = s.ids := rfl

@[simp] theorem ids_enter (s : Scoping) : s.enter.ids = s.ids := rfl

@[simp] theorem ids_leave (s : Scoping) : s.leave.ids = s.ids := rfl

@[simp] theorem ids_mark (s : Scoping) (name : String) (defined : Bool) :
    (s.mark name defined).ids = s.ids := by
  simp [ids]

@[simp] theorem ids_define (s : Scoping) (name : Token) : (s.define name).ids = s.ids :=
  ids_mark s name.lexeme true

@[simp] theorem ids_declare (s : Scoping) (name : Token) : (s.declare name).ids = s.ids := by
  simp only [declare]
  split
  · rfl
  · split <;> simp

@[simp] theorem ids_classDone (s : Scoping) (name : String) :
    (s.find (.classDone name)).ids = s.ids := rfl

@[simp] theorem ids_checkSuperclass (name : Token) (superclass : Expr) (s : Scoping) :
    (checkSuperclass name superclass s).ids = s.ids := by
  cases superclass <;> simp only [checkSuperclass]
  split <;> simp

theorem ids_parameters (parameters : List Token) (s : Scoping) :
    (parameters.foldl (fun s p => (s.declare p).define p) s).ids = s.ids := by
  induction parameters generalizing s with
  | nil => rfl
  | cons p parameters ih => simp [ih]

mutual

theorem expr_passes (around : Surroundings) (here : Place) : ∀ (e : Expr) (s : Scoping),
    Passes s (expr around e s) ((e.occurrences here).map Prod.fst)
  | .literal _,s => .of_ids rfl
  | .grouping inner,s => expr_passes around here inner s
  | .unary _ right,s => expr_passes around here right s
  | .binary left _ right,s | .logical left _ right,s => by
    have h := (expr_passes around here left s).trans (expr_passes around here right _)
    simpa [expr,Expr.occurrences] using h
  | .ternary condition ifTrue ifFalse,s => by
    have h := (expr_passes around here condition s).trans
      ((expr_passes around here ifTrue _).trans (expr_passes around here ifFalse _))
    simpa [expr,Expr.occurrences] using h
  | .variable id name,s => by
    simp only [expr]
    split
    next => exact (Passes.refer _ id name).between (by simp) rfl
    next => exact .refer s id name
  | .assign id name value,s => by
    have h := (expr_passes around here value s).trans (.refer (expr around value s) id name)
    simpa [expr,Expr.occurrences] using h
  | .call callee _ arguments,s => by
    have h := (expr_passes around here callee s).trans (exprs_passes around here arguments _)
    simpa [expr,Expr.occurrences] using h
  | .get object _,s => expr_passes around here object s
  | .set object _ value,s => by
    have h := (expr_passes around here value s).trans (expr_passes around here object _)
    simpa [expr,Expr.occurrences] using h
  | .this id keyword,s => by
    simp only [expr]
    split
    next => exact .of_ids (by simp)
    all_goals exact .refer s id keyword
  | .super id keyword _,s => by
    simp only [expr]
    split
    next => exact .of_ids (by simp)
    next => exact .of_ids (by simp)
    next => exact .refer s id keyword

theorem exprs_passes (around : Surroundings) (here : Place) : ∀ (es : List Expr) (s : Scoping),
    Passes s (exprs around es s) ((Expr.listOccurrences here es).map Prod.fst)
  | [],_ => .of_ids rfl
  | e :: es,s => by
    have h := (expr_passes around here e s).trans (exprs_passes around here es _)
    simpa [exprs,Expr.listOccurrences] using h

end

theorem optional_passes (around : Surroundings) (here : Place) (e : Option Expr) (s : Scoping) :
    Passes s (optional around e s) ((Expr.optionOccurrences here e).map Prod.fst) := by
  cases e with
  | none => exact .of_ids rfl
  | some e => exact expr_passes around here e s

mutual

theorem stmt_passes (around : Surroundings) (sites : List Site) : ∀ (b : Stmt) (s : Scoping),
    Passes s (stmt around b s) ((b.occurrences sites).map Prod.fst)
  | .expression e,s | .print e,s => expr_passes around _ e s
  | .var name initializer,s =>
    (optional_passes around _ initializer (s.declare name)).between (by simp) (by simp [stmt])
  | .block body,s =>
    (stmts_passes around _ body s.enter).between (by simp) (by simp [stmt])
  | .branch condition thenBranch elseBranch,s => by
    have h := (expr_passes around ⟨sites,none⟩ condition s).trans
      ((stmt_passes around sites thenBranch _).trans (stmt?_passes around sites elseBranch _))
    simpa [stmt,Stmt.occurrences] using h
  | .loop condition body,s => by
    have h := (expr_passes around ⟨sites,none⟩ condition s).trans (stmt_passes around sites body _)
    simpa [stmt,Stmt.occurrences] using h
  | .function d,s => by
    have h := function_passes around .function sites d ((s.declare d.name).define d.name)
    exact h.between (by simp) (by simp [stmt])
  | .return keyword value,s => by
    cases value with
    | none =>
      simp only [stmt]
      split <;> exact .of_ids (by simp)
    | some e =>
      simp only [stmt]
      split <;> split <;> exact (expr_passes around _ e _).between (by simp) rfl
  | .class name superclass methods,s => by
    cases superclass with
    | none =>
      have h := functions_passes { around with inClass := .plain } sites methods
        (((s.declare name).define name).enter.mark "this" true)
      exact h.between (by simp) (by simp [stmt])
    | some parent =>
      let inside : Surroundings := { around with inClass := .subclass }
      let passed := expr inside parent (checkSuperclass name parent ((s.declare name).define name))
      have hparent : Passes s passed ((parent.occurrences ⟨sites,none⟩).map Prod.fst) :=
        (expr_passes inside ⟨sites,none⟩ parent _).between (by simp) rfl
      have hmethods := functions_passes inside (.superclass name methods :: sites) methods
        ((passed.enter.mark "super" true).enter.mark "this" true)
      have h := hparent.trans (hmethods.between (t := passed) (by simp) rfl)
      rw [← List.map_append] at h
      exact h.between rfl (by simp [stmt,passed,inside])

theorem stmt?_passes (around : Surroundings) (sites : List Site) : ∀ (b : Option Stmt) (s : Scoping),
    Passes s (stmt? around b s) ((Stmt.optionOccurrences sites b).map Prod.fst)
  | none,_ => .of_ids rfl
  | some b,s => stmt_passes around sites b s

theorem stmts_passes (around : Surroundings) (sites : List Site) : ∀ (bs : List Stmt) (s : Scoping),
    Passes s (stmts around bs s) ((Stmt.listOccurrences sites bs).map Prod.fst)
  | [],_ => .of_ids rfl
  | b :: bs,s => by
    have h := (stmt_passes around sites b s).trans (stmts_passes around sites bs _)
    simpa [stmts,Stmt.listOccurrences] using h

theorem function_passes (around : Surroundings) (context : FunctionContext) (sites : List Site) :
    ∀ (d : FunctionDecl) (s : Scoping),
    Passes s (function around context d s) ((Stmt.functionOccurrences sites d).map Prod.fst)
  | ⟨name,parameters,body⟩,s => by
    have h := stmts_passes { around with inFunction := context }
      (.call ⟨name,parameters,body⟩ :: sites) body
      (parameters.foldl (fun s p => (s.declare p).define p) s.enter)
    exact h.between (by simp [ids_parameters]) (by simp [function])

theorem functions_passes (around : Surroundings) (sites : List Site) :
    ∀ (ds : List FunctionDecl) (s : Scoping),
    Passes s (functions around ds s) ((Stmt.methodOccurrences sites ds).map Prod.fst)
  | [],_ => .of_ids rfl
  | d :: ds,s => by
    have h := (function_passes around (if d.name.lexeme = "init" then .initializer else .method)
      (.receiver d :: sites) d s).trans (functions_passes around sites ds _)
    simpa [functions,Stmt.methodOccurrences] using h

end

end Scoping

/-- What is found is an occurrence of the program. -/
theorem id_mem_places {program : List Stmt} {id : ExprId} {name : String} {depth : Option Nat}
    (h : .occurrence id name depth ∈ findings program) : id ∈ (places program).map Prod.fst := by
  obtain ⟨found,hids,hsub⟩ := Scoping.stmts_passes ⟨.none,.none⟩ [] program ⟨[],[]⟩
  have hid : id ∈ (Scoping.stmts ⟨.none,.none⟩ program ⟨[],[]⟩).ids :=
    List.mem_filterMap.mpr ⟨_,h,rfl⟩
  rw [hids] at hid
  exact hsub.subset (by simpa [Scoping.ids] using hid)

theorem eq_of_mem_filterMap {α β : Type} {f : α → Option β} {l : List α} (h : (l.filterMap f).Nodup)
    {a b : α} {x : β} (ha : a ∈ l) (hb : b ∈ l) (hfa : f a = some x) (hfb : f b = some x) : a = b := by
  have hpair := List.pairwise_filterMap.mp h
  induction l with
  | nil => simp at ha
  | cons c l ih =>
    obtain ⟨hc,hl⟩ := List.pairwise_cons.mp hpair
    have htail : (l.filterMap f).Nodup := List.pairwise_filterMap.mpr hl
    rcases List.mem_cons.mp ha with rfl | ha' <;> rcases List.mem_cons.mp hb with heq | hb'
    · exact heq.symm
    · exact absurd rfl (hc b hb' x hfa x hfb)
    · exact absurd rfl (hc a ha' x (heq ▸ hfb) x hfa)
    · exact ih htail ha' hb' hl

/-- An occurrence is found once. -/
theorem finding_once {program : List Stmt} (h : ((places program).map Prod.fst).Nodup) {id : ExprId}
    {name other : String} {depth depth' : Option Nat} (hf : .occurrence id name depth ∈ findings program)
    (hf' : .occurrence id other depth' ∈ findings program) : name = other ∧ depth = depth' := by
  obtain ⟨found,hids,hsub⟩ := Scoping.stmts_passes ⟨.none,.none⟩ [] program ⟨[],[]⟩
  have hnodup : ((findings program).filterMap Finding.id?).Nodup := by
    have hfound : (findings program).filterMap Finding.id? = found.reverse ++ [] := hids
    rw [hfound,List.append_nil]
    exact (List.reverse_perm found).nodup_iff.mpr (h.sublist hsub)
  have heq := eq_of_mem_filterMap hnodup hf hf' rfl rfl
  exact (Finding.occurrence.inj heq).2

/-- The depth of an occurrence is found once. -/
theorem finding_unique {program : List Stmt} (h : ((places program).map Prod.fst).Nodup) {id : ExprId}
    {name other : String} {depth depth' : Option Nat} (hf : .occurrence id name depth ∈ findings program)
    (hf' : .occurrence id other depth' ∈ findings program) : depth = depth' :=
  (finding_once h hf hf').2

end Lox

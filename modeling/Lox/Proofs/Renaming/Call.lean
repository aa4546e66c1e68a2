import Lox.Proofs.Renaming.Machine
import Lox.Proofs.Run.Call

/-! Variables, properties, calls and class definitions, where some scopes have a variable under another name. -/
namespace Lox

/-- What a statement returns can be used on both machines. -/
def Flow.Known (ρ : Renaming) (p : HeapPair) : Flow → Prop
  | .normal => True
  | .returned v => p.Knows ρ v

namespace Renaming

/-- Sequences of statements do the same. -/
def Executes (ρ : Renaming) (execute : List Stmt → Eval Flow) : Prop :=
  ∀ {flags : List Bool} {ss ss' : List Stmt} {t : MachinePair}, Stmt.ListRenamed ρ flags ss ss' → t.At ρ flags →
    Eval.Mimics ρ flags (Flow.Known ρ) (execute ss) (execute ss') t

/-- Expressions do the same. -/
def Evaluates (ρ : Renaming) (evaluate : Expr → Eval Value) : Prop :=
  ∀ {flags : List Bool} {e e' : Expr} {t : MachinePair}, e.Renamed ρ flags e' → t.At ρ flags →
    Eval.Mimics ρ flags (HeapPair.Knows ρ) (evaluate e) (evaluate e') t

end Renaming

namespace Eval.Mimics

open MachinePair

variable {ρ : Renaming} {flags flags' : List Bool} {t : MachinePair} {i : ExprId} {tok tok' : Token} {v : Value}
  {f : FunctionId} {k : ScopeId} {x : String}

/-! ### Variables -/

/-- Part of what is found in a scope at a distance, under the name that it has there. -/
theorem lookupAt {β : Type} {Q : HeapPair → β → Prop} (part : ScopeId × Value → β) (ht : t.At ρ flags)
    (hfollows : t.heap.Follows k flags') (d : Nat) (hx : flags'.getD d false = true → x ≠ ρ.new)
    (hQ : ∀ j w, t.renamed j = flags'.getD d false → t.heap.Knows ρ w → Q t.heap (part (j,w))) :
    Mimics ρ flags Q (Eval.checked ((t.left.heap.lookupAt k d x).map part))
      (Eval.checked ((t.right.heap.lookupAt k d (ρ.name (flags'.getD d false) x)).map part)) t := by
  refine checked ht ?_ fun b hb => ?_
  · rw [Heap.toOption_map,Heap.toOption_map]
    exact congrArg (Option.map part) (ht.heap.lookupAt hfollows d hx)
  · cases hlookup : t.left.heap.lookupAt k d x with
    | error fault => simp [hlookup,Except.map] at hb
    | ok found =>
      obtain ⟨j,w⟩ := found
      obtain ⟨hmark,hknows⟩ := ht.heap.lookupAt_ok hfollows hlookup
      rw [hlookup] at hb
      exact Except.ok.inj hb ▸ hQ j w hmark hknows

/-- The global scope is the same but for what the values stand for. -/
theorem globals (ht : t.At ρ flags) (x : String) :
    t.right.heap.lookup? x t.right.heap.scopes.size Heap.globals =
      t.left.heap.lookup? x t.left.heap.scopes.size Heap.globals :=
  ht.heap.lookup?_globals x

theorem lookUp (ht : t.At ρ flags) (htok : ρ.Gives flags (ρ.refers flags i) tok tok') :
    Mimics ρ flags (HeapPair.Knows ρ) (lookUp i tok) (lookUp i tok') t := by
  refine get ?_
  rw [ht.distances,ht.scope,htok.lexeme]
  have hbound := ht.bound i
  cases hd : t.left.distances.find? i with
  | some d =>
    rw [Renaming.refers_some (hbound.symm.trans hd)]
    rw [Renaming.refers_some (hbound.symm.trans hd)] at htok
    exact lookupAt Prod.snd ht ht.follows d (fun h => htok.fresh (Renaming.mem_of_getD h)) fun _ _ _ hw => hw
  | none =>
    rw [Renaming.refers_none (hbound.symm.trans hd),Renaming.name_false]
    simp only [Heap.get?,globals ht]
    cases hfound : t.left.heap.lookup? tok.lexeme t.left.heap.scopes.size Heap.globals with
    | some found =>
      obtain ⟨j,w⟩ := found
      exact pure ht (ht.heap.lookup?_globals_ok hfound).2
    | none => exact runtime ht.toComparable _ htok.line

/-- The scope that is changed is marked if the occurrence refers to it under its new name. -/
theorem target (ht : t.At ρ flags) (htok : ρ.Gives flags (ρ.refers flags i) tok tok') :
    Mimics ρ flags (fun p j => p.renamed j = ρ.refers flags i) (target i tok) (target i tok') t := by
  refine get ?_
  rw [ht.distances,ht.scope,htok.lexeme]
  have hbound := ht.bound i
  cases hd : t.left.distances.find? i with
  | some d =>
    have hrefers := Renaming.refers_some (hbound.symm.trans hd) flags
    rw [hrefers]
    refine lookupAt Prod.fst ht ht.follows d (fun h => htok.fresh ?_) fun _ _ hmark _ => hmark
    exact Renaming.mem_of_getD h
  | none =>
    have hrefers := Renaming.refers_none (hbound.symm.trans hd) flags
    rw [hrefers,Renaming.name_false]
    simp only [Heap.holder?,globals ht]
    cases hfound : t.left.heap.lookup? tok.lexeme t.left.heap.scopes.size Heap.globals with
    | some found =>
      obtain ⟨j,w⟩ := found
      obtain ⟨rfl,-⟩ := ht.heap.lookup?_globals_ok hfound
      exact pure ht ht.heap.unmarked
    | none => exact runtime ht.toComparable _ htok.line

theorem assign (ht : t.At ρ flags) (htok : ρ.Gives flags (ρ.refers flags i) tok tok')
    (hv : t.heap.Knows ρ v) : Mimics ρ flags (fun _ _ => True) (assign i tok v) (assign i tok' v) t := by
  refine (target ht htok).bind fun j u hu hlater hmark => ?_
  have hgrows := HeapPair.Grows.define u.heap j tok.lexeme tok'.lexeme v
  have hknows := (hv.mono ht.heap hlater.heap).mono hu.heap hgrows
  have hfresh (h : u.heap.renamed j = true) : tok.lexeme ≠ ρ.new :=
    htok.fresh (Renaming.mem_of_refers (hmark ▸ h))
  have hp := hu.heap.define (hmark ▸ htok.lexeme) hfresh hknows
  exact .ok (u.withHeap _) (hu.withHeap hp hgrows) (.withHeap hgrows) trivial

/-! ### Properties -/

theorem bindMethod (ht : t.At ρ flags) (hf : t.heap.Closes ρ [false] f) (receiver : InstanceId) :
    Mimics ρ flags (HeapPair.Knows ρ) (Eval.allocate (·.bind f receiver) >>= fun g => Pure.pure (Value.function g))
      (Eval.allocate (·.bind f receiver) >>= fun g => Pure.pure (Value.function g)) t := by
  obtain ⟨hsame,hp,hgrows,hcloses⟩ := ht.heap.bind hf receiver
  exact allocate ht hp hgrows rfl rfl hsame fun u hu _ hheap => pure hu (hheap ▸ hcloses)

theorem getProperty (ht : t.At ρ flags) (v : Value) (tok : Token) :
    Mimics ρ flags (HeapPair.Knows ρ) (getProperty v tok) (getProperty v tok) t := by
  cases v with
  | «instance» receiver =>
    refine heap ?_
    rw [ht.property?]
    cases hproperty : t.left.heap.property? receiver tok.lexeme with
    | none => exact runtime ht.toComparable _ rfl
    | some found =>
      obtain ⟨hfield,hmethod⟩ := ht.heap.property hproperty
      cases found with
      | field w => exact pure ht (hfield w rfl)
      | method f => exact bindMethod ht (hmethod f rfl) receiver
  | _ => exact runtime ht.toComparable _ rfl

theorem superMethod (hρ : ρ.Apt) (ht : t.At ρ flags) (i : ExprId) (tok method : Token) :
    Mimics ρ flags (HeapPair.Knows ρ) (superMethod i tok method) (superMethod i tok method) t := by
  refine get ?_
  rw [ht.distances,ht.scope]
  cases t.left.distances.find? i with
  | none => exact internal ht.toComparable _ _
  | some distance =>
    refine bindChecked ht.toComparable (ht.heap.getAt_keyword ht.follows distance hρ.super) fun v _ => ?_
    cases v with
    | «class» parent =>
      cases distance with
      | zero => exact internal ht.toComparable _ _
      | succ inner =>
        refine bindChecked ht.toComparable (ht.heap.getAt_keyword ht.follows inner hρ.this) fun w _ => ?_
        cases w with
        | «instance» receiver =>
          dsimp only
          rw [ht.findMethod?]
          cases hf : t.left.heap.findMethod? parent method.lexeme with
          | none => exact runtime ht.toComparable _ rfl
          | some f => exact note ht fun u hu _ hheap => bindMethod hu (hheap ▸ ht.heap.findMethod hf) receiver
        | _ => exact internal ht.toComparable _ _
    | _ => exact internal ht.toComparable _ _

/-! ### Calls -/

variable {execute : List Stmt → Eval Flow} {flow : Flow} {vs : List Value}

theorem callResult (hρ : ρ.Apt) (ht : t.At ρ flags) {c c' : Function} (hinitializer : c'.isInitializer = c.isInitializer)
    (hclosure : c'.closure = c.closure) (hfollows : t.heap.Follows c.closure flags') (hflow : flow.Known ρ t.heap) :
    Mimics ρ flags (HeapPair.Knows ρ) (callResult c flow) (callResult c' flow) t := by
  simp only [Eval.callResult,hinitializer,hclosure]
  split
  · exact heap (checked ht (ht.heap.getAt_keyword hfollows 0 hρ.this) fun v hv => ht.heap.getAt_ok hfollows hv)
  · cases flow with
    | normal => exact pure ht trivial
    | returned v => exact pure ht hflow

/-- Arguments are bound to parameters that may have another name. -/
theorem parameters_renamed {flag : Bool} {ps ps' : List Token}
    (hps : List.Forall₂ (ρ.Gives (flag :: flags) flag) ps ps') (vs : List Value) :
    (Bindings.ofList ((ps.map Token.lexeme).zip vs)).Renamed ρ flag
      (Bindings.ofList ((ps'.map Token.lexeme).zip vs)) := by
  have hfold : ∀ (vs : List Value) {b b' : Bindings Value}, b.Renamed ρ flag b' →
      (((ps.map Token.lexeme).zip vs).foldl (fun b (name,v) => b.insert name v) b).Renamed ρ flag
        (((ps'.map Token.lexeme).zip vs).foldl (fun b (name,v) => b.insert name v) b') := by
    induction hps with
    | nil => exact fun _ _ _ hb => hb
    | @cons p p' ps ps' hp _ ih =>
      intro vs b b' hb
      cases vs with
      | nil => exact hb
      | cons v vs =>
        have hfresh (hflag : flag = true) : p.lexeme ≠ ρ.new := hp.fresh (by simp [hflag])
        exact ih vs (hp.lexeme ▸ hb.insert hfresh v)
  exact hfold vs .empty

theorem apply (hρ : ρ.Apt) (hexecute : ρ.Executes execute) (ht : t.At ρ flags) (hf : t.heap.Closes ρ [] f)
    (hvs : ∀ v ∈ vs, t.heap.Knows ρ v) :
    Mimics ρ flags (HeapPair.Knows ρ) (apply execute f vs) (apply execute f vs) t := by
  obtain ⟨flags',hfollows,hdeclaration⟩ := hf.declaration
  obtain ⟨flag,hparameters,hbody⟩ := hdeclaration.scope
  refine heap (note ht fun u hu hlater hheap => ?_)
  rw [← hheap] at hvs
  have hinRange : (t.left.heap.getFunction f).closure.index < u.left.heap.scopes.size :=
    Nat.lt_of_lt_of_le hf.inRange hlater.heap.left.scopes
  have haround : u.heap.Follows (t.left.heap.getFunction f).closure flags' :=
    hfollows.mono ht.heap.linked hf.inRange hlater.heap
  refine bind (inNew hu rfl (congrArg some hf.closure) hinRange haround (parameters_renamed hparameters vs) ?_
    fun w hw _ => hexecute hbody hw) ?_
  · intro x v hv
    exact hvs v (List.of_mem_zip (Bindings.mem_of_find?_ofList hv)).2
  · intro flow w hw hlater hflow
    have haround' := haround.mono hu.heap.linked hinRange hlater.heap
    exact callResult hρ hw hf.isInitializer hf.closure haround' hflow

theorem construct (hρ : ρ.Apt) (hexecute : ρ.Executes execute) (ht : t.At ρ flags) (k : ClassId)
    (hvs : ∀ v ∈ vs, t.heap.Knows ρ v) :
    Mimics ρ flags (HeapPair.Knows ρ) (construct execute k vs) (construct execute k vs) t := by
  refine heap (note ht fun u hu _ hheap => ?_)
  rw [← hheap] at hvs
  have hgrows := HeapPair.Grows.addInstance u.heap ⟨k,∅⟩
  have hsame : u.right.heap.instances.size = u.left.heap.instances.size := congrArg Array.size hu.heap.instances
  refine allocate hu (hu.heap.addInstance k) hgrows rfl rfl (congrArg InstanceId.mk hsame) fun w hw _ hheap₁ => ?_
  have hgrows₁ : u.heap.Grows w.heap := hheap₁ ▸ hgrows
  refine heap ?_
  rw [hw.findMethod?]
  cases hf : w.left.heap.findMethod? k "init" with
  | none => exact pure hw trivial
  | some f =>
    obtain ⟨hbound,hp,hgrows₂,hcloses⟩ := hw.heap.bind (hw.heap.findMethod hf) (u.left.heap.addInstance ⟨k,∅⟩).1
    refine allocate hw hp hgrows₂ rfl rfl hbound fun z hz _ hheap₂ => ?_
    have hgrows₃ : w.heap.Grows z.heap := hheap₂ ▸ hgrows₂
    refine (apply hρ hexecute hz (hheap₂ ▸ hcloses) fun v hv => ?_).bind fun _ _ hz' _ _ => pure hz' trivial
    exact (hvs v hv).mono hu.heap (hgrows₁.trans hgrows₃)

theorem invoke (hρ : ρ.Apt) (hexecute : ρ.Executes execute) (ht : t.At ρ flags) (hv : t.heap.Knows ρ v) (paren : Token)
    (hvs : ∀ v ∈ vs, t.heap.Knows ρ v) :
    Mimics ρ flags (HeapPair.Knows ρ) (invoke execute v paren vs) (invoke execute v paren vs) t := by
  cases v with
  | native f =>
    exact note ht fun u hu _ _ => (readClock hu).bind fun _ _ hw _ _ => pure hw trivial
  | function f => exact apply hρ hexecute ht hv hvs
  | «class» k => exact construct hρ hexecute ht k hvs
  | _ => exact runtime ht.toComparable _ rfl

theorem call (hρ : ρ.Apt) (hexecute : ρ.Executes execute) (ht : t.At ρ flags) (hv : t.heap.Knows ρ v) (paren : Token)
    (hvs : ∀ v ∈ vs, t.heap.Knows ρ v) :
    Mimics ρ flags (HeapPair.Knows ρ) (call execute v paren vs) (call execute v paren vs) t := by
  refine get ?_
  rw [ht.callable? hv,ht.depth]
  cases t.left.heap.callable? v with
  | none => exact runtime ht.toComparable _ rfl
  | some found =>
    dsimp only
    split
    · exact runtime ht.toComparable _ rfl
    · split
      · exact note ht fun u hu _ _ => .error u hu.toComparable (.error .same)
      · exact nested ht fun u hu hheap => invoke hρ hexecute hu (hheap ▸ hv) paren (hheap ▸ hvs)

/-! ### Classes -/

variable {evaluate : Expr → Eval Value} {e e' : Option Expr}

theorem superclassOf (hevaluate : ρ.Evaluates evaluate) (ht : t.At ρ flags) (name : Token)
    (he : Expr.OptionRenamed ρ flags e e') :
    Mimics ρ flags (fun _ k => k.isSome = e.isSome) (superclassOf evaluate name e) (superclassOf evaluate name e')
      t := by
  cases he with
  | none => exact pure ht rfl
  | some he =>
    refine (hevaluate he ht).bind fun v u hu _ _ => ?_
    cases v with
    | «class» k => exact pure hu rfl
    | _ =>
      cases he with
      | «variable» hname => exact runtime hu.toComparable _ hname.line
      | _ => exact runtime hu.toComparable _ rfl

theorem addMethods {ds ds' : List FunctionDecl} (hds : Stmt.FunctionsRenamed ρ (false :: flags') ds ds')
    (ht : t.At ρ flags) (hk : k.index < t.left.heap.scopes.size) (hfollows : t.heap.Follows k flags') :
    Mimics ρ flags (fun p fs => ∀ x f, (x,f) ∈ fs → p.Closes ρ [false] f) (addMethods k ds) (addMethods k ds') t := by
  induction ds generalizing ds' t with
  | nil =>
    cases hds
    exact pure ht (by simp)
  | cons d ds ih =>
    cases hds with
    | @cons _ _ d' _ ds' hd hds =>
      rw [Eval.addMethods,Eval.addMethods,hd.name]
      have hgrows := HeapPair.Grows.addFunction t.heap ⟨d,k,d.name.lexeme == "init"⟩ ⟨d',k,d.name.lexeme == "init"⟩
      refine allocate ht (ht.heap.addFunction _ _) hgrows rfl rfl (congrArg FunctionId.mk ht.heap.functions) ?_
      intro u hu _ hheap
      have hgrows' : t.heap.Grows u.heap := hheap ▸ hgrows
      have hnew : u.heap.Closes ρ [false] ⟨t.left.heap.functions.size⟩ :=
        hheap ▸ ht.heap.closes_new rfl rfl hk hfollows hd
      have hk' := Nat.lt_of_lt_of_le hk hgrows'.left.scopes
      refine (ih hds hu hk' (hfollows.mono ht.heap.linked hk hgrows')).bind fun fs w hw hlater hfs => pure hw ?_
      intro x f hf
      rcases List.mem_cons.mp hf with heq | hf
      · obtain ⟨-,rfl⟩ := Prod.mk.inj heq
        exact hnew.mono hu.heap hlater.heap
      · exact hfs x f hf

/-- The scope that holds the superclass is not marked. -/
theorem methodScope (ht : t.At ρ flags) (parent : Option ClassId) :
    Mimics ρ flags (fun p j => j.index < p.left.scopes.size ∧
        p.Follows j (Renaming.aroundReceiver flags parent.isSome)) (methodScope parent) (methodScope parent) t := by
  refine get ?_
  rw [ht.scope]
  cases parent with
  | none => exact pure ht ⟨ht.inRange,ht.follows⟩
  | some c =>
    let s : Scope := ⟨(∅ : Bindings Value).insert "super" (.class c),some t.left.scope⟩
    have hparent : t.heap.Knows ρ (.class c) := trivial
    have hp : (t.heap.addScope false s s).Sound ρ := ht.heap.addSingle rfl ht.inRange hparent "super"
    refine allocated ht hp (.addScope t.heap false s s) rfl rfl (congrArg ScopeId.mk ht.heap.scopes) ⟨?_,?_⟩
    · exact Nat.lt_of_lt_of_eq (Nat.lt_succ_self _) (Array.size_push _).symm
    · exact ht.heap.enter false s rfl ht.inRange ht.follows

/-- A name that is bound in the current scope is found there. -/
theorem changeHolder (ht : t.At ρ flags) (htok : ρ.Gives flags (flags.headD false) tok tok)
    (hbinds : t.left.heap.Binds t.left.scope tok.lexeme) (c : ClassId) :
    Mimics ρ flags (fun _ _ => True)
      (match t.left.heap.holder? t.left.scope tok.lexeme with
        | some holder => changeHeap (·.define holder tok.lexeme (.class c))
        | none => Eval.runtime (.undefinedVariable tok.lexeme) tok)
      (match t.right.heap.holder? t.right.scope tok.lexeme with
        | some holder => changeHeap (·.define holder tok.lexeme (.class c))
        | none => Eval.runtime (.undefinedVariable tok.lexeme) tok) t := by
  obtain ⟨v,hv⟩ := Option.isSome_iff_exists.mp hbinds
  have hfresh (hflag : t.heap.renamed t.left.scope = true) : tok.lexeme ≠ ρ.new :=
    htok.fresh (Renaming.mem_of_headD (ht.here ▸ hflag))
  have hname : tok.lexeme = ρ.name (t.heap.renamed t.left.scope) tok.lexeme := by
    rw [show t.heap.renamed t.left.scope = _ from ht.here]
    exact htok.lexeme
  have hv' : (t.right.heap.getScope t.left.scope).bindings.find? tok.lexeme = some v := by
    have hfind := ht.heap.bindings t.left.scope tok.lexeme hfresh
    rw [← hname] at hfind
    exact hfind.trans hv
  have hroot : 0 < t.left.heap.scopes.size := ht.heap.root
  have hroot' : 0 < t.right.heap.scopes.size := Nat.lt_of_lt_of_eq hroot ht.heap.scopes.symm
  rw [ht.scope,Heap.holder?_here hroot hv,Heap.holder?_here hroot' hv']
  have hgrows := HeapPair.Grows.define t.heap t.left.scope tok.lexeme tok.lexeme (.class c)
  have hp := ht.heap.define (v := .class c) hname hfresh trivial
  exact .ok (t.withHeap _) (ht.withHeap hp hgrows) (.withHeap hgrows) trivial

theorem defineClass {ds ds' : List FunctionDecl} (ht : t.At ρ flags)
    (htok : ρ.Gives flags (flags.headD false) tok tok) (parent : Option ClassId)
    (hds : Stmt.FunctionsRenamed ρ (false :: Renaming.aroundReceiver flags parent.isSome) ds ds') :
    Mimics ρ flags (fun _ _ => True) (defineClass tok parent ds) (defineClass tok parent ds') t := by
  refine define ht htok trivial fun u hu hdefined hheap => ?_
  have hbinds : u.left.heap.Binds u.left.scope tok.lexeme := by
    have hleft : u.left.heap = t.left.heap.define t.left.scope tok.lexeme .nil := congrArg HeapPair.left hheap
    rw [hleft,hdefined.scope]
    exact (Heap.binds_define _ _ _ _ _ _).mpr (.inl ⟨rfl,ht.inRange,rfl⟩)
  refine (methodScope hu parent).bind fun k w hw hlater hk => ?_
  refine (addMethods hds hw hk.1 hk.2).bind fun fs z hz hlater' hfs => ?_
  have hclass (x : String) (f : FunctionId) (hf : (Bindings.ofList fs).find? x = some f) :
      z.heap.Closes ρ [false] f :=
    hfs x f (Bindings.mem_of_find?_ofList hf)
  have hsame : z.right.heap.classes.size = z.left.heap.classes.size := congrArg Array.size hz.heap.classes
  have hgrows := HeapPair.Grows.addClass z.heap ⟨tok.lexeme,parent,.ofList fs⟩
  refine allocate hz (hz.heap.addClass hclass) hgrows rfl rfl (congrArg ClassId.mk hsame) ?_
  intro y hy hlater'' _
  have hall := (hlater.trans hlater').trans hlater''
  refine get (changeHolder hy htok ?_ _)
  rw [hall.scope]
  exact hall.heap.left.binds _ _ hbinds

end Eval.Mimics

end Lox

import Lox.Proofs.Run.Variable

/-! Expressions end well: what they give is valid, and if one ends with an internal error, an assignment
is to blame. -/
namespace Lox

open Eval

variable {runs : List Run} {r p : Run} {c : Context} {m m' : Machine} {n : Nat} {h : Heap}
  {id : ExprId} {name keyword method : Token}

/-! ### Operators -/

theorem Valid.of_ne {v : Value} (hv : ∀ f, v ≠ .function f) : Valid runs h v := by
  cases v with
  | function f => exact absurd rfl (hv f)
  | _ => trivial

/-- An operator gives a value that is no function, or an error of the program. -/
def Computes (op : Token) (x : Except Error Value) : Prop :=
  (∃ v, x = .ok v ∧ ∀ f, v ≠ .function f) ∨ ∃ fault, x = .error (.runtime fault op.line)

theorem Computes.not_internal {op : Token} {x : Except Error Value} (hx : Computes op x)
    (fault : InternalFault) : x ≠ .error (.internal fault) := by
  rcases hx with ⟨v,rfl,-⟩ | ⟨fault',rfl⟩ <;> simp

theorem Computes.finishes {op : Token} {x : Except Error Value} (hx : Computes op x)
    (hgood : Good runs m.heap) :
    Finishes runs r (fun _ => False) (outcome x) m fun v h => Valid runs h v := by
  rcases hx with ⟨v,rfl,hv⟩ | ⟨fault,rfl⟩
  · exact .of_ok rfl ⟨.refl _ m,hgood⟩ (.of_ne hv)
  · exact .runtime hgood fault op

theorem applyUnary_computes {op : Token} (hop : op.kind ∈ [Kind.bang,.minus]) (v : Value) :
    Computes op (applyUnary op v) := by
  simp only [List.mem_cons,List.not_mem_nil,or_false] at hop
  rcases hop with hop | hop
  · exact .inl ⟨.boolean !v.isTruthy,by simp only [applyUnary,hop],by simp⟩
  · cases v with
    | number x => exact .inl ⟨.number (-x),by simp only [applyUnary,hop],by simp⟩
    | _ => exact .inr ⟨.numberOperand,by simp only [applyUnary,hop]⟩

theorem onNumbers_computes {op : Token} {f : Float → Float → Except Error Value}
    (hf : ∀ x y, Computes op (f x y)) (v w : Value) : Computes op (onNumbers op v w f) := by
  simp only [onNumbers]
  split
  · exact hf _ _
  · exact .inr ⟨_,rfl⟩

theorem applyBinary_computes {op : Token} (hop : op.kind ∈ Kind.binaryOperators) (v w : Value) :
    Computes op (applyBinary op v w) := by
  have hnumber (f : Float → Float → Float) :
      Computes op (onNumbers op v w fun x y => .ok (.number (f x y))) :=
    onNumbers_computes (fun x y => .inl ⟨_,rfl,by simp⟩) v w
  have hboolean (f : Float → Float → Bool) :
      Computes op (onNumbers op v w fun x y => .ok (.boolean (f x y))) :=
    onNumbers_computes (fun x y => .inl ⟨_,rfl,by simp⟩) v w
  simp only [Kind.binaryOperators,List.mem_cons,List.not_mem_nil,or_false] at hop
  rcases hop with hop | hop | hop | hop | hop | hop | hop | hop | hop | hop <;>
    simp only [applyBinary,hop]
  · exact .inl ⟨_,rfl,by simp⟩
  · exact .inl ⟨_,rfl,by simp⟩
  · exact hboolean _
  · exact hboolean _
  · exact hboolean _
  · exact hboolean _
  · exact hnumber _
  · split
    · exact .inl ⟨_,rfl,by simp⟩
    · exact .inl ⟨_,rfl,by simp⟩
    · exact .inr ⟨_,rfl⟩
  · refine onNumbers_computes (fun x y => ?_) v w
    split
    · exact .inr ⟨_,rfl⟩
    · exact .inl ⟨_,rfl,by simp⟩
  · exact hnumber _

/-! ### Expressions -/

theorem Met.lookUp_finishes {e : Expr} (h : Met runs r (.expr n e) m) (hgood : Good runs m.heap)
    (he : e.reads? = some (id,name.lexeme)) :
    Finishes runs r (fun _ => False) (Eval.lookUp id name) m fun v h => Valid runs h v := by
  have hsame : Finished runs (fun _ => False) m m := ⟨.refl _ m,hgood⟩
  rcases h.lookUp he with ⟨v,hv,hvalid⟩ | hruntime
  · exact .of_ok hv hsame hvalid
  · exact .after_same hruntime hsame (.runtime hgood _ _)

/-- An assignment is to blame for an internal error of its own. -/
theorem Met.assign_finishes {id : ExprId} {name : Token} {e : Expr} {v : Value}
    (h : Met runs r (.expr (n + 1) (.assign id name e)) m) (he : evaluate n e m = .ok v m')
    (hgood : Good runs m'.heap) (hname : name.IsName) (hvalid : Valid runs m'.heap v) :
    Finishes runs r (fun _ => False) (Eval.assign id name v) m' fun _ _ => True := by
  rcases target_cases id name m' with ⟨j,htarget,hj⟩ | ⟨e',htarget⟩
  · exact .of_ok (assign_ok htarget v) ⟨.redefine hj v,hgood.define hname hvalid j⟩ trivial
  · have hassign := assign_raise htarget v
    refine .of_error hassign ⟨.refl _,rfl,hgood,fun fault hfault => ?_⟩
    obtain rfl := Halt.error.inj hfault
    exact ⟨_,id,name,e,m,h.visits,.assign he hassign⟩

/-- `super` once it is known what it refers to. -/
theorem superMethod_eq (keyword method : Token) {d : Nat} {k : ClassId} {i : InstanceId}
    (hd : m.distances.find? id = some (d + 1))
    (hsuper : m.heap.getAt m.scope (d + 1) "super" = .ok (.class k))
    (hthis : m.heap.getAt m.scope d "this" = .ok (.instance i)) :
    Eval.superMethod id keyword method m = (match m.heap.findMethod? k method.lexeme with
      | none => Eval.runtime (.undefinedProperty method.lexeme) method
      | some f => do
        Eval.note (.superFound method.lexeme (m.heap.getClass k).name keyword.line)
        return .function (← allocate (·.bind f i)) : Eval Value) m := by
  have hget (f : Machine → Eval Value) : (get >>= f) m = f m m := rfl
  have hchecked {α : Type} (a : α) (f : α → Eval Value) : (checked (.ok a) >>= f) m = f a m := rfl
  cases hfound : m.heap.findMethod? k method.lexeme with
  | none => simp only [Eval.superMethod,hget,hd,hsuper,hthis,hchecked,hfound]
  | some f => simp only [Eval.superMethod,hget,hd,hsuper,hthis,hchecked,hfound]

theorem Met.superMethod (h : Met runs r (.expr (n + 1) (.super id keyword method)) m)
    (hat : At runs c m) (hp : p ∈ runs) (hpart : ExprIn p.program c (.super id keyword method)) :
    Finishes runs r (fun _ => False) (Eval.superMethod id keyword method) m
      fun v h => Valid runs h v := by
  obtain ⟨hrecorded,hclass⟩ := hpart.super (hat.accepted p hp)
  obtain ⟨d,k,i,hd,hsuper,hthis⟩ := hat.superclass hp hrecorded hclass
  have hmethod := superMethod_eq keyword method hd hsuper hthis
  cases hfound : m.heap.findMethod? k method.lexeme with
  | none =>
    rw [hfound] at hmethod
    exact .after_same (y := Eval.runtime _ _) hmethod ⟨.refl _ m,hat.good⟩ (.runtime hat.good _ _)
  | some f =>
    rw [hfound] at hmethod
    have hbind : Met runs r (.bind f i)
        (m.note (.superFound method.lexeme (m.heap.getClass k).name keyword.line)) :=
      h.of_starts (.super_method hd hsuper hthis hfound)
        ⟨hat.toReady.of_eq rfl rfl,hat.good.findMethod hfound⟩
    obtain ⟨hfinished,hvalid,-⟩ := hbind.bound
    have hnoted : Finished runs (fun _ => False) m
        (m.note (.superFound method.lexeme (m.heap.getClass k).name keyword.line)) :=
      ⟨.of_eq rfl rfl rfl,hat.good⟩
    exact .of_ok hmethod (hnoted.trans hfinished (fun _ h => h) fun _ h => h) hvalid

/-- What a property access gives once the object is known. -/
theorem getProperty_eq (i : InstanceId) (name : Token) (m : Machine) :
    Eval.getProperty (.instance i) name m =
      (match m.heap.property? i name.lexeme with
        | some (.field value) => return value
        | some (.method f) => return .function (← allocate (·.bind f i))
        | none => Eval.runtime (.undefinedProperty name.lexeme) name : Eval Value) m :=
  rfl

theorem Safe.getProperty (hn : Safe runs r n) {e : Expr} {v : Value}
    (h : Met runs r (.expr (n + 1) (.get e name)) m) (he : evaluate n e m = .ok v m')
    (hgood : Good runs m'.heap) :
    Finishes runs r (fun _ => False) (Eval.getProperty v name) m' fun v h => Valid runs h v := by
  cases v with
  | «instance» i =>
    have hproperty := getProperty_eq i name m'
    cases hfound : m'.heap.property? i name.lexeme with
    | none =>
      rw [hfound] at hproperty
      exact .after_same (y := Eval.runtime _ _) hproperty ⟨.refl _ m',hgood⟩ (.runtime hgood _ _)
    | some property =>
      rw [hfound] at hproperty
      cases property with
      | field v =>
        simp only [Heap.property?] at hfound
        split at hfound
        next w hw =>
          obtain rfl := Heap.Property.field.inj (Option.some.inj hfound)
          exact .of_ok hproperty ⟨.refl _ m',hgood⟩ (hgood.field i _ w hw)
        next => simp at hfound
      | method f =>
        obtain ⟨hfinished,hvalid,-⟩ := (hn.expr_step h (.get_method he hfound)).bound
        exact .of_ok hproperty hfinished hvalid
  | _ => exact .runtime hgood _ _

theorem call_eq (execute : List Stmt → Eval Flow) (f : Value) (paren : Token) (vs : List Value) (m : Machine) :
    Eval.call execute f paren vs m =
      (match m.heap.callable? f with
        | none => Eval.runtime .notCallable paren
        | some (name,arity) =>
          if vs.length ≠ arity then Eval.runtime (.arity arity vs.length) paren
          else if Machine.maxDepth ≤ m.depth then do
            Eval.note (.depthLimit name)
            stop (.stackOverflow paren.line)
          else Eval.nested (Eval.invoke execute f paren vs) : Eval Value) m :=
  rfl

theorem Safe.call (hn : Safe runs r n) {e : Expr} {paren : Token} {es : List Expr} {f : Value}
    {m₁ : Machine} {vs : List Value} (h : Met runs r (.expr (n + 1) (.call e paren es)) m)
    (he : evaluate n e m = .ok f m₁) (hes : evaluateEach (evaluate n) es m₁ = .ok vs m')
    (hgood : Good runs m'.heap) :
    Finishes runs r (fun _ => False) (Eval.call (executeEach (execute n)) f paren vs) m'
      fun v h => Valid runs h v := by
  have hcall := call_eq (executeEach (execute n)) f paren vs m'
  have hsame : Finished runs (fun _ => False) m' m' := ⟨.refl _ m',hgood⟩
  refine .after_same hcall hsame ?_
  split
  next => exact .runtime hgood _ _
  next name arity hcallable =>
    split
    next => exact .runtime hgood _ _
    next harity =>
      obtain rfl : vs.length = arity := by simpa using harity
      split
      next =>
        refine .note hgood (.of_error rfl ⟨.refl _,rfl,hgood,fun fault hfault => ?_⟩)
        simp at hfault
      next hdepth =>
        exact .nested (hn.invoke (hn.expr_step h (.invoke he hes hcallable (by omega))))

/-- What an expression gives with one step more of the budget. -/
theorem Safe.expr_succ (hn : Safe runs r n) {e : Expr} (h : Met runs r (.expr (n + 1) e) m) :
    Finishes runs r (fun _ => False) (evaluate (n + 1) e) m fun v h => Valid runs h v := by
  obtain ⟨c,hat,p,hp,hpart⟩ := h.typed
  have hsame : Finished runs (fun _ => False) m m := ⟨.refl _ m,hat.good⟩
  cases e with
  | literal l => exact .of_ok rfl hsame (.of_ne fun f => by cases l <;> simp [Literal.value])
  | grouping e => exact hn.expr e m (hn.expr_step h .grouping)
  | unary op e =>
    refine (hn.expr e m (hn.expr_step h .unary)).bind_same fun v m₁ _ hfinished _ => ?_
    exact (applyUnary_computes hpart.proper.1 v).finishes hfinished.good
  | binary a op b =>
    refine (hn.expr a m (hn.expr_step h .binary_left)).bind_same fun v m₁ ha _ _ => ?_
    refine (hn.expr b m₁ (hn.expr_step h (.binary_right ha))).bind_same fun w m₂ _ hfinished _ => ?_
    exact (applyBinary_computes hpart.proper.1 v w).finishes hfinished.good
  | logical a op b =>
    refine (hn.expr a m (hn.expr_step h .logical_left)).bind_same fun v m₁ ha hfinished hvalid => ?_
    split
    next => exact .of_ok rfl ⟨.refl _ m₁,hfinished.good⟩ hvalid
    next hv => exact hn.expr b m₁ (hn.expr_step h (.logical_right ha (by simpa using hv)))
  | ternary c a b =>
    refine (hn.expr c m (hn.expr_step h .ternary_condition)).bind_same fun v m₁ hc _ _ => ?_
    split
    next hv => exact hn.expr a m₁ (hn.expr_step h (.ternary_true hc hv))
    next hv => exact hn.expr b m₁ (hn.expr_step h (.ternary_false hc (by simpa using hv)))
  | «variable» id name => exact h.lookUp_finishes hat.good rfl
  | assign id name e =>
    refine (hn.expr e m (hn.expr_step h .assign_value)).bind_same fun v m₁ he hfinished hvalid => ?_
    have hassign := h.assign_finishes he hfinished.good hpart.assign.2.1 hvalid
    refine hassign.bind_same fun _ m₂ _ hfinished' _ => ?_
    exact .of_ok rfl ⟨.refl _ m₂,hfinished'.good⟩ (hvalid.extends hfinished'.later.heap)
  | call e paren es =>
    refine (hn.expr e m (hn.expr_step h .callee)).bind_same fun f m₁ he _ _ => ?_
    refine (hn.exprs (hn.expr_step h (.arguments he))).bind_same fun vs m₂ hes hfinished _ => ?_
    exact hn.call h he hes hfinished.good
  | get e name =>
    refine (hn.expr e m (hn.expr_step h .get_object)).bind_same fun v m₁ he hfinished _ => ?_
    exact hn.getProperty h he hfinished.good
  | set e name value =>
    refine (hn.expr e m (hn.expr_step h .set_object)).bind_same fun v m₁ he hfinished _ => ?_
    cases v with
    | «instance» i =>
      have hvalue := hn.expr value m₁ (hn.expr_step h (.set_value he))
      refine hvalue.bind_same fun w m₂ _ hfinished' hvalid => ?_
      have hset := hfinished'.good.setField hvalid i name.lexeme
      have hgrown : m₂.heap.Extends (m₂.heap.setField i name.lexeme w) := .of_eq rfl rfl
      exact .of_ok rfl ⟨.of_heap hgrown rfl rfl rfl,hset⟩ (hvalid.extends hgrown)
    | _ => exact .runtime hfinished.good _ _
  | this id keyword => exact h.lookUp_finishes hat.good rfl
  | super id keyword method => exact h.superMethod hat hp hpart

end Lox

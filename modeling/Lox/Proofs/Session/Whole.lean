import Lox.Proofs.Session.Alike
import Lox.Proofs.Session.Lasting

/-! Nothing dangles: in the course of a session, every value that a program can come by refers to an object that
exists, and so do the instances of the heap and the superclasses of its classes. -/
namespace Lox

open Eval

/-! ### Trees and themselves -/

/-- Everything is alike itself, and nothing else. -/
def Likeness.same : Likeness := .only (fun _ => True) (fun _ => True) trivial

mutual

theorem Expr.Alike.same : ∀ e : Expr, e.Alike .same e
  | .literal _ => .literal
  | .grouping e => .grouping (.same e)
  | .unary _ e => .unary ⟨rfl,trivial⟩ (.same e)
  | .binary a _ b => .binary (.same a) ⟨rfl,trivial⟩ (.same b)
  | .logical a _ b => .logical (.same a) ⟨rfl,trivial⟩ (.same b)
  | .ternary a b c => .ternary (.same a) (.same b) (.same c)
  | .variable _ _ => .variable ⟨rfl,trivial⟩ ⟨rfl,trivial⟩
  | .assign _ _ e => .assign ⟨rfl,trivial⟩ ⟨rfl,trivial⟩ (.same e)
  | .call e _ es => .call (.same e) ⟨rfl,trivial⟩ (.same es)
  | .get e _ => .get (.same e) ⟨rfl,trivial⟩
  | .set a _ b => .set (.same a) ⟨rfl,trivial⟩ (.same b)
  | .this _ _ => .this ⟨rfl,trivial⟩ ⟨rfl,trivial⟩
  | .super _ _ _ => .super ⟨rfl,trivial⟩ ⟨rfl,trivial⟩ ⟨rfl,trivial⟩

theorem Expr.ListAlike.same : ∀ es : List Expr, Expr.ListAlike .same es es
  | [] => .nil
  | e :: es => .cons (.same e) (.same es)

end

theorem Expr.OptionAlike.same : ∀ e : Option Expr, Expr.OptionAlike .same e e
  | .none => .none
  | .some e => .some (.same e)

namespace Stmt

mutual

theorem Alike.same : ∀ s : Stmt, s.Alike .same s
  | .expression e => .expression (.same e)
  | .print e => .print (.same e)
  | .var _ e => .var ⟨rfl,trivial⟩ (.same e)
  | .block ss => .block (ListAlike.same ss)
  | .branch e s t => .branch (.same e) (Alike.same s) (OptionAlike.same t)
  | .loop e s => .loop (.same e) (Alike.same s)
  | .function d => .function (FunctionAlike.same d)
  | .return _ e => .return ⟨rfl,trivial⟩ (.same e)
  | .class _ e ds => .class ⟨rfl,trivial⟩ (.same e) (FunctionsAlike.same ds)

theorem OptionAlike.same : ∀ s : Option Stmt, OptionAlike .same s s
  | .none => .none
  | .some s => .some (Alike.same s)

theorem ListAlike.same : ∀ ss : List Stmt, ListAlike .same ss ss
  | [] => .nil
  | s :: ss => .cons (Alike.same s) (ListAlike.same ss)

theorem FunctionAlike.same : ∀ d : FunctionDecl, FunctionAlike .same d d
  | ⟨_,_,body⟩ => .mk ⟨rfl,trivial⟩ (List.forall₂_same.mpr fun _ _ => ⟨rfl,trivial⟩) (ListAlike.same body)

theorem FunctionsAlike.same : ∀ ds : List FunctionDecl, FunctionsAlike .same ds ds
  | [] => .nil
  | d :: ds => .cons (FunctionAlike.same d) (FunctionsAlike.same ds)

end

end Stmt

/-! ### Machines and themselves -/

namespace Correspondence

/-- Every object stands for itself. -/
abbrev itself : Correspondence := .same .same

@[simp] theorem itself_scope (i : ScopeId) : itself.scope i = i := by
  simp only [scope]
  split <;> rfl

theorem itself_scope_id : itself.scope = id := funext itself_scope

@[simp] theorem itself_value (v : Value) : itself.value v = v := by
  cases v <;> rfl

end Correspondence

/-- The machine corresponds to itself, so that all objects it refers to exist. -/
def Machine.Whole (m : Machine) : Prop := m.Alike .itself m

/-- Objects that the work starts with exist. -/
def Work.Whole (h : Heap) : Work → Prop
  | .invoke _ callee _ vs => Correspondence.itself.Knows h callee ∧ ∀ v ∈ vs, Correspondence.itself.Knows h v
  | .apply _ _ vs => ∀ v ∈ vs, Correspondence.itself.Knows h v
  | .bind _ i => i.index < h.instances.size
  | .classDefinition _ parent _ => ∀ c, parent = some c → c.index < h.classes.size
  | _ => True

variable {runs : List Run} {programs : List (List Stmt)} {s : Session} {r : Run} {w w' : Work} {n : Nat} {m m' : Machine}

namespace Machine.Whole

variable (hm : m.Whole)
include hm

theorem evaluate {e : Expr} {v : Value} (h : evaluate n e m = .ok v m') :
    m'.Whole ∧ Correspondence.itself.Knows m'.heap v := by
  obtain ⟨v',m₁,h',hm',-,hv⟩ := ((Correspondence.itself.evaluates_performs n).1 (.same e) hm).ok h
  obtain ⟨-,rfl⟩ := EStateM.Result.ok.inj (h.symm.trans h')
  exact ⟨hm',hv.knows⟩

theorem evaluateEach {es : List Expr} {vs : List Value} (h : evaluateEach (Lox.evaluate n) es m = .ok vs m') :
    m'.Whole ∧ ∀ v ∈ vs, Correspondence.itself.Knows m'.heap v := by
  have hn : Correspondence.itself.Evaluates (Lox.evaluate n) := (Correspondence.itself.evaluates_performs n).1
  obtain ⟨vs',m₁,h',hm',-,-,hvs⟩ := (Mirrors.evaluateEach hn (.same es) hm).ok h
  obtain ⟨-,rfl⟩ := EStateM.Result.ok.inj (h.symm.trans h')
  exact ⟨hm',hvs⟩

theorem execute {b : Stmt} {flow : Flow} (h : execute n b m = .ok flow m') : m'.Whole := by
  obtain ⟨flow',m₁,h',hm',-⟩ := ((Correspondence.itself.evaluates_performs n).2 (.same b) hm).ok h
  obtain ⟨-,rfl⟩ := EStateM.Result.ok.inj (h.symm.trans h')
  exact hm'

/-- A value that is found in a scope refers to an object that exists. -/
theorem getAt {i : ScopeId} {distance : Nat} {name : String} {v : Value} (hname : name ≠ Native.clock.name)
    (h : m.heap.getAt i distance name = .ok v) : Correspondence.itself.Knows m.heap v := by
  rw [Heap.getAt] at h
  cases hlookup : m.heap.lookupAt i distance name with
  | error fault => simp [hlookup,Except.map] at h
  | ok found =>
    obtain rfl : found.2 = v := by simpa [hlookup,Except.map] using h
    exact (hm.heap.lookupAt_ok (Correspondence.itself.visible_of_ne hname) hlookup).2

theorem note (e : Event) : (m.note e).Whole := Alike.note hm e e

theorem deeper : m.deeper.Whole := Alike.redepth hm (m.depth + 1)

theorem inNew {b : Bindings Value} (hb : b.Alike .itself m.heap b) (enclosing : Option ScopeId) :
    (m.inNew ⟨b,enclosing⟩).Whole := by
  have hheap := hm.heap.addScope hb enclosing
  rw [Correspondence.itself_scope_id,Option.map_id,id] at hheap
  have hadded : Machine.Whole { m with heap := (m.heap.addScope ⟨b,enclosing⟩).2 } :=
    Alike.reheap hm hheap (.addScope _ _)
  have hnew := Alike.rescope hadded (i := ⟨m.heap.scopes.size⟩) (by simp [Heap.addScope])
  rwa [Correspondence.itself_scope] at hnew

theorem constructing {c : ClassId} (hc : c.index < m.heap.classes.size) : (m.constructing c).Whole :=
  Alike.reheap (hm.note _) (hm.heap.addInstance ⟨rfl,hc,.empty⟩) (.addInstance _ _)

theorem binding {i : InstanceId} (hi : i.index < m.heap.instances.size) (f : FunctionId) : (m.binding f i).Whole :=
  Alike.reheap hm (hm.heap.bind hi f) (.bind _ _ _)

theorem calling {vs : List Value} (hvs : ∀ v ∈ vs, Correspondence.itself.Knows m.heap v) (f : FunctionId) :
    (m.calling f vs).Whole := by
  refine (hm.note _).inNew ?_ _
  have hb := Bindings.Alike.ofList ((m.heap.getFunction f).declaration.parameters.map Token.lexeme) hvs
  rwa [List.map_congr_left fun v _ => Correspondence.itself_value v,List.map_id'] at hb

end Machine.Whole

/-- Work starts other work with objects that exist, and on a heap where nothing dangles. -/
theorem Starts.whole (hs : Starts w m w' m') (hw : w.Whole m.heap) (hm : m.Whole) : w'.Whole m'.heap ∧ m'.Whole := by
  cases hs with
  | binary_right ha | logical_right ha => exact ⟨trivial,(hm.evaluate ha).1⟩
  | ternary_true hc | ternary_false hc => exact ⟨trivial,(hm.evaluate hc).1⟩
  | arguments he | set_value he | exprs_tail he => exact ⟨trivial,(hm.evaluate he).1⟩
  | branch_then hc | branch_else hc | loop_body hc => exact ⟨trivial,(hm.evaluate hc).1⟩
  | loop_again hc _ hs => exact ⟨trivial,(hm.evaluate hc).1.execute hs⟩
  | stmts_tail hs | program_tail hs => exact ⟨trivial,hm.execute hs⟩
  | @invoke n e paren es m f m₁ vs m₂ name he hes =>
    obtain ⟨hm₁,hf⟩ := hm.evaluate he
    obtain ⟨hm₂,hvs⟩ := hm₁.evaluateEach hes
    have hgrows : m₁.heap.Grows m₂.heap := ((Restores.composes.evaluateEach (restoring n).expr es).ok hes).heap
    exact ⟨⟨hf.mono hgrows,hvs⟩,hm₂.deeper⟩
  | get_method he => exact ⟨(hm.evaluate he).2,(hm.evaluate he).1⟩
  | super_method _ _ hi => exact ⟨hm.getAt (by decide) hi,hm.note _⟩
  | block => exact ⟨trivial,hm.inNew .empty _⟩
  | superclass => exact ⟨trivial,hm.note _⟩
  | class_alone => exact ⟨by simp [Work.Whole],hm.note _⟩
  | @class_derived n name e methods m c m₁ he =>
    obtain ⟨hm₁,hc⟩ := (hm.note (.classDefined name.lexeme)).evaluate he
    exact ⟨fun c' hc' => Option.some.inj hc' ▸ hc,hm₁⟩
  | function => exact ⟨hw.2,hm⟩
  | initializer => exact ⟨by simp [Machine.constructing,Heap.addInstance,Work.Whole],hm.constructing hw.1⟩
  | @construction n c paren vs m f hf =>
    have hmade : (m.constructing c).Whole := hm.constructing hw.1
    have hlt : m.heap.instances.size < (m.constructing c).heap.instances.size := by
      simp [Machine.constructing,Heap.addInstance]
    have hgrows : m.heap.Grows ((m.constructing c).binding f ⟨m.heap.instances.size⟩).heap :=
      Heap.Grows.trans (.addInstance _ _) (.bind _ _ _)
    exact ⟨fun v hv => (hw.2 v hv).mono hgrows,hmade.binding hlt f⟩
  | body => exact ⟨trivial,hm.calling hw _⟩
  | _ => exact ⟨trivial,hm⟩

theorem Visits.whole (h : Visits r w m) (hr : r.machine.Whole) : w.Whole m.heap ∧ m.Whole := by
  induction h with
  | start => exact ⟨trivial,hr⟩
  | step _ hs ih => exact hs.whole ih.1 ih.2

namespace Reached

/-- Between calls nothing dangles. -/
theorem whole (h : Reached runs programs s) : s.machine.Whole := h.same fun _ _ _ _ => trivial

/-- Nothing dangles when a run starts. -/
theorem starts_whole (h : Reached runs programs s) : ∀ r ∈ runs, r.machine.Whole := by
  have hstarts {s : Session} (hs : s.machine.Whole) (budget : Nat) (program : List Stmt) :
      ∀ r ∈ s.starts budget program, r.machine.Whole := by
    intro r hr
    rw [Session.starts] at hr
    split at hr
    · obtain rfl := List.mem_singleton.mp hr
      have hids : Likeness.same.Distinguishes .same := fun hi hj => by rw [hi.1,hj.1]
      exact Machine.Whole.note (hs.resolve (.same program) hids).2 _
    · cases hr
  induction h with
  | new => simp
  | parsed _ _ ih | rejected _ _ ih | run_rejected _ _ _ ih => exact ih
  | executed budget h _ ih => exact List.forall_mem_append.mpr ⟨hstarts h.whole budget _,ih⟩
  | @run _ _ _ _ _ s' budget h hs ih =>
    have hparsed : s'.machine.Whole := Session.parse_read hs ▸ Machine.Alike.noteAll (h.whole.note (.running _)) _ _
    exact List.forall_mem_append.mpr ⟨hstarts hparsed budget _,ih⟩

/-- Nothing dangles in the course of a run. -/
theorem visits_whole (h : Reached runs programs s) (hr : r ∈ runs) (hv : Visits r w m) : w.Whole m.heap ∧ m.Whole :=
  hv.whole (h.starts_whole r hr)

end Reached

end Lox

import Lox.Proofs.Session.Alike
import Mathlib

/-! A program that is executed again and again does the same each time, whatever the executions before have
left behind. -/
namespace Lox

namespace Session

/-- Nothing has been executed yet. -/
def Fresh (s : Session) : Prop :=
  s.machine = { Machine.initial s.machine.output s.machine.clock with log := s.machine.log }

/-- The session after a number of executions of one program. -/
def repeated (budget : Nat) (program : List Stmt) (s : Session) : Nat → Session
  | 0 => s
  | k + 1 => ((s.repeated budget program k).execute budget program).2

end Session

/-- The global names that are there before any program. -/
def Heap.fresh : Heap := Heap.initial.define Heap.globals Native.clock.name (.native .clock)

/-- A heap in whose global scope only some names are bound, except for the one that is always there. -/
structure Heap.Leaves (names : String → Prop) (h : Heap) : Prop where
  root : 0 < h.scopes.size
  outermost : (h.getScope globals).enclosing = none
  bound : ∀ name, name ≠ Native.clock.name → h.Binds globals name → names name

/-- The first execution and a later one, where the later one finds what those before it have left. -/
def Correspondence.again (names : String → Prop) (m m' : Machine) : Correspondence where
  like := .only (fun _ => True) (·.lexeme ≠ Native.clock.name) (by decide)
  scopes := m'.heap.scopes.size - 1
  functions := m'.heap.functions.size
  classes := m'.heap.classes.size
  instances := m'.heap.instances.size
  leftover name := name ≠ Native.clock.name ∧ names name
  timed := False
  before := m.output.written
  before' := m'.output.written
  spelt ht heq := ht.2 heq

namespace Heap

theorem fresh_globals {name : String} (hname : name ≠ Native.clock.name) :
    (fresh.getScope globals).bindings.find? name = none := by
  have hscope : fresh.getScope globals = ⟨(∅ : Bindings Value).insert Native.clock.name (.native .clock),none⟩ :=
    rfl
  rw [hscope]
  simp [Bindings.find?_insert,hname]

theorem fresh_scope {i : ScopeId} (hi : i ≠ globals) : fresh.getScope i = default := by
  obtain ⟨_ | i⟩ := i
  · exact absurd rfl hi
  · rfl

theorem getScope_beyond {h : Heap} {i : ScopeId} (hi : h.scopes.size ≤ i.index) : h.getScope i = default := by
  rw [getScope,Array.getElem?_eq_none hi]
  rfl

theorem getFunction_beyond {h : Heap} {f : FunctionId} (hf : h.functions.size ≤ f.index) :
    h.getFunction f = default := by
  rw [getFunction,Array.getElem?_eq_none hf]
  rfl

theorem getClass_beyond {h : Heap} {k : ClassId} (hk : h.classes.size ≤ k.index) :
    h.getClass k = default := by
  rw [getClass,Array.getElem?_eq_none hk]
  rfl

theorem fresh_leaves (names : String → Prop) : fresh.Leaves names where
  root := by decide
  outermost := rfl
  bound name hname hbinds := by simp [Binds,Bindings.contains,fresh_globals hname] at hbinds

/-- Nothing of what is left has a counterpart at the start. -/
theorem Leaves.alike {names : String → Prop} {m m' : Machine} (h : m'.heap.Leaves names) :
    fresh.Alike (.again names m m') m'.heap where
  scopes := by
    have hroot := h.root
    show m'.heap.scopes.size = 1 + (m'.heap.scopes.size - 1)
    omega
  functions := (Nat.zero_add _).symm
  classes := (Nat.zero_add _).symm
  instances := (Nat.zero_add _).symm
  root := by decide
  outermost := rfl
  scope i := by
    by_cases hi : i = globals
    · subst hi
      refine ⟨h.outermost,fun name v hname hv => ?_,fun name hname _ => ?_⟩
      · simp [fresh_globals hname] at hv
      · cases hfind : (m'.heap.getScope globals).bindings.find? name with
        | none => exact .inl hfind
        | some v =>
          have hbinds : m'.heap.Binds globals name := by simp [Binds,Bindings.contains,hfind]
          exact .inr ⟨rfl,hname,h.bound name hname hbinds⟩
    · rw [fresh_scope hi,Correspondence.scope,if_neg hi,getScope_beyond]
      · exact .of_bindings .empty none
      · obtain ⟨_ | i⟩ := i
        · exact absurd rfl hi
        · show m'.heap.scopes.size ≤ i + 1 + (m'.heap.scopes.size - 1)
          omega
  function f := by
    have hnew : m'.heap.getFunction ((Correspondence.again names m m').function f) = default :=
      getFunction_beyond (Nat.le_add_left _ _)
    rw [hnew]
    exact ⟨.mk (Correspondence.again names m m').like.eof .nil .nil,rfl,rfl⟩
  «class» k := by
    have hnew : m'.heap.getClass ((Correspondence.again names m m').class k) = default :=
      getClass_beyond (Nat.le_add_left _ _)
    rw [hnew]
    exact ⟨rfl,rfl,fun _ => rfl⟩
  superclass k p hp := by cases hp
  «instance» i hi := absurd hi (Nat.not_lt_zero _)

end Heap

/-! ### Distances -/

/-- What is entered does not depend on what has been there before. -/
theorem Distances.insertAll_overlay (occurrences : List (ExprId × String × Option Nat)) :
    ∃ entered : ExprId → Option Nat, ∀ (d : Distances) (id : ExprId),
      (d.insertAll occurrences).find? id = (entered id).or (d.find? id) := by
  induction occurrences with
  | nil => exact ⟨fun _ => none,fun _ _ => rfl⟩
  | cons o occurrences ih =>
    obtain ⟨i,name,distance⟩ := o
    obtain ⟨entered,hentered⟩ := ih
    cases distance with
    | none => exact ⟨entered,hentered⟩
    | some n =>
      refine ⟨fun id => (entered id).or (if id = i then some n else none),fun d id => ?_⟩
      refine (hentered (d.insert i n) id).trans ?_
      rw [find?_insert,Option.or_assoc]
      split <;> simp

/-- It makes no difference if the same is entered again. -/
theorem Distances.insertAll_again {occurrences : List (ExprId × String × Option Nat)} {d d' : Distances}
    (h : ∀ id, d'.find? id = (d.insertAll occurrences).find? id) (id : ExprId) :
    (d'.insertAll occurrences).find? id = (d.insertAll occurrences).find? id := by
  obtain ⟨entered,hentered⟩ := insertAll_overlay occurrences
  rw [hentered,h,hentered,← Option.or_assoc,Option.or_self]

/-! ### Executions -/

/-- A machine on which programs find the same names, distances and limits as at the start. -/
structure Machine.Renews (names : String → Prop) (m m' : Machine) : Prop where
  heap : m'.heap.Leaves names
  distances : ∀ id, m'.distances.find? id = m.distances.find? id
  limit : m'.output.limit = m.output.limit
  flushFails : m'.output.flushFails = m.output.flushFails
  scope : m'.scope = Heap.globals
  depth : m'.depth = 0

/-- A machine with no object, at the start of its first program. -/
structure Machine.Unused (m : Machine) : Prop where
  heap : m.heap = .fresh
  scope : m.scope = Heap.globals
  depth : m.depth = 0
  limit : m.output.limit = none

namespace Machine

variable {names : String → Prop} {m m' : Machine} {program : List Stmt} {budget : Nat}

theorem Renews.alike (h : m.Renews names m') (hm : m.Unused) :
    m.Alike (.again names m m') m' where
  heap := hm.heap ▸ h.heap.alike
  distances i i' hi := hi.1 ▸ h.distances i
  output := ⟨h.limit,h.flushFails,⟨.empty,ByteArray.append_empty.symm,ByteArray.append_empty.symm⟩,.inl hm.limit⟩
  clock := False.elim
  scope := by rw [h.scope,hm.scope]; rfl
  exists_scope := by rw [hm.heap,hm.scope]; decide
  depth := h.depth.trans hm.depth.symm

/-- An execution on such a machine does the same as the first one, and leaves such a machine again. -/
theorem Renews.interpret (h : m.Renews names m') (hm : m.Unused)
    (hnames : names = (m.interpret budget program).2.heap.Binds Heap.globals)
    (hp : Stmt.ListAlike (.only (fun _ => True) (·.lexeme ≠ Native.clock.name) (by decide)) program program) :
    (m'.interpret budget program).1 = (m.interpret budget program).1 ∧
      m.Renews names (m'.interpret budget program).2 ∧
      ∃ text, (m.interpret budget program).2.output.written = m.output.written ++ text ∧
        (m'.interpret budget program).2.output.written = m'.output.written ++ text := by
  have hcomplete : (Correspondence.again names m m').Complete (m.interpret budget program).2.heap :=
    fun name hname => hnames ▸ hname.2
  obtain ⟨houtcome,hend,hkeeps⟩ := (h.alike hm).interpret hp hcomplete
  have htokens (t t' : Token) (ht : (Correspondence.again names m m').like.token t t') : t' = t := ht.1
  refine ⟨houtcome.eq htokens,?_,hend.output.written⟩
  obtain ⟨hscope,hdepth⟩ := m'.interpret_top budget program
  refine ⟨⟨?_,?_,fun name hname hbinds => ?_⟩,fun id => ?_,?_,?_,hscope,hdepth⟩
  · rw [hend.heap.scopes]
    exact Nat.add_pos_left hend.heap.root _
  · have henclosing := (hend.heap.scope Heap.globals).enclosing
    rwa [hend.heap.outermost] at henclosing
  · rw [hnames]
    by_contra hunbound
    have hnone := hend.heap.missing (i := Heap.globals) hname hcomplete (by
      simpa [Heap.Binds,Bindings.contains] using hunbound)
    rw [Correspondence.scope_globals] at hnone
    simp [Heap.Binds,Bindings.contains,hnone] at hbinds
  · exact (hend.distances id id ⟨rfl,trivial⟩).trans (congrArg (·.find? id) hkeeps.distances)
  · exact hend.output.limit.trans hkeeps.limit
  · exact hend.output.flushFails.trans hkeeps.flushFails

/-- Resolving the program once more enters the same distances. -/
theorem Renews.resolve {m₀ : Machine} (h : (m₀.resolve program).2.Renews names m') :
    (m₀.resolve program).2.Renews names (m'.resolve program).2 :=
  { h with distances := Distances.insertAll_again h.distances }

end Machine

namespace Session

variable {s t t' : Session} {source : String} {program : List Stmt} {budget : Nat}

theorem Fresh.unused (h : s.Fresh) (hlimit : s.machine.output.limit = none) :
    (s.machine.resolve program).2.Unused := by
  rw [Fresh] at h
  have hheap : (s.machine.resolve program).2.heap = s.machine.heap := rfl
  have hscope : (s.machine.resolve program).2.scope = s.machine.scope := rfl
  have hdepth : (s.machine.resolve program).2.depth = s.machine.depth := rfl
  refine ⟨?_,?_,?_,hlimit⟩
  · rw [hheap,h]
    rfl
  · rw [hscope,h]
    rfl
  · rw [hdepth,h]
    rfl

/-- Before each execution, the machine is ready to do again what the first one does. -/
theorem repeated_renews {names : String → Prop} (hfresh : (s.machine.resolve program).2.Unused)
    (haccepted : (resolve program).errors = [])
    (hnames : names = ((s.machine.resolve program).2.interpret budget program).2.heap.Binds Heap.globals)
    (hp : Stmt.ListAlike (.only (fun _ => True) (·.lexeme ≠ Native.clock.name) (by decide)) program program)
    (k : Nat) :
    (s.machine.resolve program).2.Renews names
      ((s.repeated budget program k).machine.resolve program).2 := by
  induction k with
  | zero =>
    refine ⟨?_,fun _ => rfl,rfl,rfl,hfresh.scope,hfresh.depth⟩
    rw [repeated,hfresh.heap]
    exact Heap.fresh_leaves names
  | succ k ih =>
    obtain ⟨-,hrenews,-⟩ := ih.interpret hfresh hnames hp
    rw [repeated,execute_accepted haccepted]
    exact hrenews.resolve

end Session

/-- A program that does not mention the clock ends with the same status and prints the same text whenever it is
executed in a session that was new before its first execution. -/
theorem execute_repeats {s t t' : Session} {source : String} {program : List Stmt} (budget : Nat)
    (h : t.parse source = (.ok program,t'))
    (hclock : ∀ token ∈ (scan source).tokens, token.lexeme ≠ Native.clock.name) (hfresh : s.Fresh)
    (hlimit : s.machine.output.limit = none) :
    ∃ status text, ∀ k, let before := s.repeated budget program k
      (before.execute budget program).1 = status ∧
        (before.execute budget program).2.machine.output.written =
          before.machine.output.written ++ text := by
  by_cases haccepted : (resolve program).errors = []
  · have heof : (Token.eof 1).lexeme ≠ Native.clock.name := by decide
    have hp : Stmt.ListAlike (.only (fun _ => True) (·.lexeme ≠ Native.clock.name) heof) program program :=
      Session.parse_only h hclock
    have hunused : (s.machine.resolve program).2.Unused := hfresh.unused hlimit
    have hrenews (k : Nat) : (s.machine.resolve program).2.Renews _
        ((s.repeated budget program k).machine.resolve program).2 :=
      Session.repeated_renews hunused haccepted rfl hp k
    obtain ⟨-,-,text,htext,-⟩ := (hrenews 0).interpret hunused rfl hp
    refine ⟨.ofOutcome ((s.machine.resolve program).2.interpret budget program).1,text,fun k => ?_⟩
    obtain ⟨houtcome,-,text',htext',hend⟩ := (hrenews k).interpret hunused rfl hp
    obtain rfl := (ByteArray.append_right_inj _).mp (htext.symm.trans htext')
    dsimp only
    rw [Session.execute_accepted haccepted,← houtcome]
    exact ⟨rfl,hend⟩
  · refine ⟨.compileError (resolve program).errors,.empty,fun k => ?_⟩
    dsimp only
    rw [Session.execute_rejected haccepted]
    exact ⟨rfl,ByteArray.append_empty.symm⟩

theorem execute_repeats_closure :
    ∃ program s', (Session.new .unlimited (.startingAt 0)).parse
        "fun f() \x7b return a; \x7d var a = true; print f();" = (.ok program,s') ∧
      ∀ k, let before := s'.repeated 64 program k
        (before.execute 64 program).1 = .success ∧
          (before.execute 64 program).2.machine.output.written =
            before.machine.output.written ++ "true\n".toUTF8 := by
  let source := "fun f() \x7b return a; \x7d var a = true; print f();"
  let f : Token := ⟨.identifier,"f",1⟩
  let a : Token := ⟨.identifier,"a",1⟩
  let program : List Stmt := [.function ⟨f,[],[.return ⟨.kwReturn,"return",1⟩ (some (.variable (.numbered 0) a))]⟩,
    .var a (some (.literal (.boolean true))),
    .print (.call (.variable (.numbered 1) f) ⟨.rightParen,")",1⟩ [])]
  have htokens : (scan source).tokens = [⟨.kwFun,"fun",1⟩,f,⟨.leftParen,"(",1⟩,⟨.rightParen,")",1⟩,
      ⟨.leftBrace,"\x7b",1⟩,⟨.kwReturn,"return",1⟩,a,⟨.semicolon,";",1⟩,⟨.rightBrace,"\x7d",1⟩,
      ⟨.kwVar,"var",1⟩,a,⟨.equal,"=",1⟩,⟨.kwTrue,"true",1⟩,⟨.semicolon,";",1⟩,⟨.kwPrint,"print",1⟩,f,
      ⟨.leftParen,"(",1⟩,⟨.rightParen,")",1⟩,⟨.semicolon,";",1⟩,.eof 1] := by decide +kernel
  have herrors : (scan source).errors = [] := by decide +kernel
  have hprogram : (Reading.ofSource source ⟨0⟩).program = .ok program := by
    simp only [Reading.program,Reading.errors,Reading.ofSource,htokens,herrors]
    cbv
  let s := Session.new .unlimited (.startingAt 0)
  have hparse : s.parse source = (.ok program,(s.read source).2) := by
    have hread : (Reading.ofSource source s.ids).program = .ok program := hprogram
    rw [Session.parse_eq,hread]
  have hclock : ∀ token ∈ (scan source).tokens, token.lexeme ≠ Native.clock.name := by
    rw [htokens]
    decide
  have hfresh : (s.read source).2.Fresh := rfl
  have hwritten : (s.read source).2.machine.output.written = .empty := rfl
  have hlimit : (s.read source).2.machine.output.limit = none := rfl
  have hsuccess : ((s.read source).2.execute 64 program).1.isSuccess = true := by decide +kernel
  have hprinted : ((s.read source).2.execute 64 program).2.machine.output.written = "true\n".toUTF8 := by
    decide +kernel
  -- From here on it does not matter how the session has come about.
  generalize (s.read source).2 = s' at *
  obtain ⟨status,text,hall⟩ := execute_repeats 64 hparse hclock hfresh hlimit
  obtain ⟨hstatus,htext⟩ := hall 0
  simp only [Session.repeated] at hstatus htext
  rw [hstatus] at hsuccess
  rw [hprinted,hwritten,ByteArray.empty_append] at htext
  cases status with
  | success => exact ⟨program,s',hparse,fun k => htext ▸ hall k⟩
  | _ => simp [Status.isSuccess] at hsuccess

end Lox

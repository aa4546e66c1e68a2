import Lox.Proofs.Run.Agreement
import Lox.Proofs.Session.Reached
import Mathlib

/-! Static and dynamic scoping in a session: in every run, a local name stands for the declaration that
scoping has found, whatever calls have come before. -/
namespace Lox

/-- Scoping finds an occurrence in a program of the runs, at this place and with this distance only. -/
structure Located (runs : List Run) (id : ExprId) (name : String) (place : Place)
    (depth : Option Nat) : Prop where
  found : ∃ p ∈ runs, (id,place) ∈ places p.program ∧ .occurrence id name depth ∈ findings p.program
  only : ∀ q ∈ runs, ∀ other, (id,other) ∈ places q.program → other = place
  once : ∀ q ∈ runs, ∀ name' depth', .occurrence id name' depth' ∈ findings q.program → depth' = depth

variable {runs : List Run} {programs : List (List Stmt)} {s : Session} {r p : Run} {w : Work}
  {m m' : Machine} {id : ExprId} {name : String} {place : Place} {depth : Option Nat}

/-- An occurrence has one place in its program. -/
theorem place_unique {program : List Stmt} {other : Place} (h : ((places program).map Prod.fst).Nodup)
    (hplace : (id,place) ∈ places program) (hother : (id,other) ∈ places program) : other = place := by
  have hnodup : ((places program).filterMap (some ∘ Prod.fst)).Nodup := by
    rwa [List.filterMap_eq_map]
  have heq := eq_of_mem_filterMap hnodup hother hplace rfl rfl
  exact (Prod.mk.inj heq).2

namespace Orderly

theorem located (h : Orderly runs programs s) (hp : p ∈ runs) (hplace : (id,place) ∈ places p.program)
    (hfound : .occurrence id name depth ∈ findings p.program) : Located runs id name place depth := by
  have hprogram := (h.started p hp).1
  have hid : id ∈ (places p.program).map Prod.fst := List.mem_map.mpr ⟨_,hplace,rfl⟩
  have hnodup := h.apart.once p.program hprogram
  -- All programs that have this identity are one.
  have hsame (q : Run) (hq : q ∈ runs) (hidq : id ∈ (places q.program).map Prod.fst) :
      q.program = p.program :=
    h.apart.apart q.program (h.started q hq).1 p.program hprogram id hidq hid
  refine ⟨⟨p,hp,hplace,hfound⟩,?_,?_⟩
  · intro q hq other hother
    have heq := hsame q hq (List.mem_map.mpr ⟨_,hother,rfl⟩)
    exact place_unique hnodup hplace (heq ▸ hother)
  · intro q hq name' depth' hother
    have heq := hsame q hq (id_mem_places hother)
    exact finding_unique hnodup (heq ▸ hother) hfound

/-- Whatever is done in the course of a run has met the scopes it belongs in. -/
theorem visits (h : Orderly runs programs s) (hr : r ∈ runs) (hvisits : Visits r w m) :
    ∃ earlier, earlier ⊆ runs ∧ Met earlier r w m := by
  obtain ⟨earlier,hearlier,hstart⟩ := h.prepared r hr
  exact ⟨earlier,hearlier,.of_visits hstart hvisits⟩

end Orderly

/-- A text is parsed and executed in a new session. -/
theorem Reached.single {source : String} {program : List Stmt} (output : Output) (clock : Clock)
    (budget : Nat) (hprogram : (Reading.ofSource source ⟨0⟩).program = .ok program) :
    let s := ((Session.new output clock).read source).2
    Reached (s.starts budget program) [program] (s.execute budget program).2 := by
  intro s
  have hparse : (Session.new output clock).parse source = (.ok program,s) := by
    rw [Session.parse_eq]
    simp only [Session.new,hprogram]
    rfl
  have hparsed : Reached [] [program] s := .parsed (.new output clock) hparse
  have hexecuted := hparsed.executed budget List.mem_cons_self
  rwa [List.append_nil] at hexecuted

/-- Whenever a name is read in a run, and scoping has found it at some distance, the scope at this
distance binds it and belongs to the construct that scoping has found it in. No read is thus at fault when
a run ends with an internal error; this is left to assignments. -/
theorem reads_agree (h : Reached runs programs s) (hids : s.ids.allocated ≤ 2 ^ 32) (hr : r ∈ runs)
    (hvisits : Visits r w m) :
    (∀ n e id name, w = .expr n e → e.reads? = some (id,name) →
      ∃ place depth, Located runs id name place depth ∧ m.distances.find? id = depth ∧
        ∀ d, depth = some d → Agrees runs m place name d) ∧
    (∀ fault, Raises w m fault → w.IsAssignment) ∧
    ∀ fault, w.halt? m = some (.error (.internal fault)) →
      ∃ w' m', Visits r w' m' ∧ w'.IsAssignment ∧ Raises w' m' fault := by
  have horderly := h.orderly hids
  obtain ⟨earlier,hearlier,hmet⟩ := horderly.visits hr hvisits
  refine ⟨?_,fun fault hraises => hmet.raises hraises,fun fault hhalt => hmet.blame hhalt⟩
  rintro n e id name rfl hreads
  obtain ⟨p,hp,place,depth,hplace,hfound,hdistance,hagrees⟩ := hmet.reads hreads
  have hlocated := horderly.located (hearlier hp) hplace hfound
  exact ⟨place,depth,hlocated,hdistance,fun d hd => (hagrees d hd).mono hearlier⟩

theorem reads_agree_closure :
    let a : Token := ⟨.identifier,"a",1⟩
    ∃ runs programs s r m place, Reached runs programs s ∧ r ∈ runs ∧
      Visits r (.expr 4 (.variable (.numbered 0) a)) m ∧
      m.distances.find? (.numbered 0) = some 2 ∧ Agrees runs m place "a" 2 := by
  intro a
  let f : Token := ⟨.identifier,"f",1⟩
  let source := "\x7b var a; \x7b fun f() \x7b a; \x7d f(); \x7d \x7d"
  let declaration : FunctionDecl := ⟨f,[],[.expression (.variable (.numbered 0) a)]⟩
  let program : List Stmt := [.block [.var a none,.block [.function declaration,
    .expression (.call (.variable (.numbered 1) f) ⟨.rightParen,")",1⟩ [])]]]
  have htokens : (scan source).tokens =
      [⟨.leftBrace,"\x7b",1⟩,⟨.kwVar,"var",1⟩,a,⟨.semicolon,";",1⟩,⟨.leftBrace,"\x7b",1⟩,⟨.kwFun,"fun",1⟩,f,
        ⟨.leftParen,"(",1⟩,⟨.rightParen,")",1⟩,⟨.leftBrace,"\x7b",1⟩,a,⟨.semicolon,";",1⟩,
        ⟨.rightBrace,"\x7d",1⟩,f,⟨.leftParen,"(",1⟩,⟨.rightParen,")",1⟩,⟨.semicolon,";",1⟩,
        ⟨.rightBrace,"\x7d",1⟩,⟨.rightBrace,"\x7d",1⟩,.eof 1] := by decide +kernel
  have herrors : (scan source).errors = [] := by decide +kernel
  have hprogram : (Reading.ofSource source ⟨0⟩).program = .ok program := by
    simp only [Reading.program,Reading.errors,Reading.ofSource,htokens,herrors]
    cbv
  let s := ((Session.new .unlimited (.startingAt 0)).read source).2
  let r : Run := ⟨9,program,(s.machine.resolve program).2.note (.interpreting 1)⟩
  have hreached : Reached [r] [program] (s.execute 9 program).2 :=
    .single .unlimited (.startingAt 0) 9 hprogram
  have hids : (s.execute 9 program).2.ids.allocated ≤ 2 ^ 32 := by
    rw [Session.execute_ids]
    simp only [s,Session.read,Reading.ofSource,htokens]
    decide +kernel
  have houter := (Visits.start (r := r)).step .program_head |>.step .block
  have hinner := houter.step (.stmts_tail rfl) |>.step .stmts_head |>.step .block
  have hcall := hinner.step (.stmts_tail rfl) |>.step .stmts_head |>.step .expression
  have hbody := hcall.step (.invoke rfl rfl rfl (by decide +kernel)) |>.step .function |>.step .body
  have hvisits := hbody.step .stmts_head |>.step .expression
  have hdistance : r.machine.distances.find? (.numbered 0) = some 2 := by decide +kernel
  have hread := (reads_agree hreached hids List.mem_cons_self hvisits).1 _ _ _ _ rfl rfl
  obtain ⟨place,depth,-,hdepth,hagrees⟩ := hread
  have hd : depth = some 2 := hdepth.symm.trans hdistance
  exact ⟨_,_,_,_,_,place,hreached,List.mem_cons_self,hvisits,hdistance,hagrees 2 hd⟩

/-- When the new value of a local name has been found, the scope at the distance of the name binds it and
the assignment succeeds. Only in the initial value of the variable itself there is no binding yet, and
the run ends with an internal error. -/
theorem writes_agree (h : Reached runs programs s) (hids : s.ids.allocated ≤ 2 ^ 32) (hr : r ∈ runs)
    {n : Nat} {t : Token} {e : Expr} {v : Value}
    (hvisits : Visits r (.expr (n + 1) (.assign id t e)) m) (he : evaluate n e m = .ok v m') :
    ∃ place depth, Located runs id t.lexeme place depth ∧ m'.distances.find? id = depth ∧
      ∀ d, depth = some d →
        (place.initializing ≠ some t.lexeme ∧ Agrees runs m' place t.lexeme d ∧
          ∃ h, Eval.assign id t v m' = .ok () { m' with heap := h }) ∨
        (place.initializing = some t.lexeme ∧ d = 0 ∧ ¬m'.heap.Binds m'.scope t.lexeme ∧
          Eval.assign id t v m' = Eval.raise (.internal (.unbound t.lexeme 0)) m') := by
  have horderly := h.orderly hids
  obtain ⟨earlier,hearlier,hmet⟩ := horderly.visits hr hvisits
  obtain ⟨p,hp,place,depth,hplace,hfound,hdistance,houtcome⟩ := hmet.writes he
  have hlocated := horderly.located (hearlier hp) hplace hfound
  refine ⟨place,depth,hlocated,hdistance,fun d hd => ?_⟩
  rcases houtcome d hd with ⟨hinit,hagrees,hassign⟩ | hunbound
  · exact .inl ⟨hinit,hagrees.mono hearlier,hassign⟩
  · exact .inr hunbound

theorem writes_agree_own_value :
    let a : Token := ⟨.identifier,"a",1⟩
    ∃ runs programs s r m m', Reached runs programs s ∧ r ∈ runs ∧
      Visits r (.expr 4 (.assign (.numbered 1) a (.literal .nil))) m ∧
      evaluate 3 (.literal .nil) m = .ok .nil m' ∧
      Eval.assign (.numbered 1) a .nil m' = Eval.raise (.internal (.unbound "a" 0)) m' := by
  intro a
  let source := "\x7b var a = a = nil; \x7d"
  let own : Expr := .assign (.numbered 1) a (.literal .nil)
  let program : List Stmt := [.block [.var a (some own)]]
  have htokens : (scan source).tokens =
      [⟨.leftBrace,"\x7b",1⟩,⟨.kwVar,"var",1⟩,a,⟨.equal,"=",1⟩,a,⟨.equal,"=",1⟩,⟨.kwNil,"nil",1⟩,
        ⟨.semicolon,";",1⟩,⟨.rightBrace,"\x7d",1⟩,.eof 1] := by decide +kernel
  have herrors : (scan source).errors = [] := by decide +kernel
  have hprogram : (Reading.ofSource source ⟨0⟩).program = .ok program := by
    simp only [Reading.program,Reading.errors,Reading.ofSource,htokens,herrors]
    cbv
  let s := ((Session.new .unlimited (.startingAt 0)).read source).2
  let r : Run := ⟨6,program,(s.machine.resolve program).2.note (.interpreting 1)⟩
  have hreached : Reached [r] [program] (s.execute 6 program).2 :=
    .single .unlimited (.startingAt 0) 6 hprogram
  have hids : (s.execute 6 program).2.ids.allocated ≤ 2 ^ 32 := by
    rw [Session.execute_ids]
    simp only [s,Session.read,Reading.ofSource,htokens]
    decide +kernel
  have hblock := (Visits.start (r := r)).step .program_head |>.step .block
  have hvisits := hblock.step .stmts_head |>.step .var
  have hr : r ∈ [r] := List.mem_cons_self
  have hdistance : r.machine.distances.find? (.numbered 1) = some 0 := by decide +kernel
  obtain ⟨place,depth,hlocated,hdepth,houtcome⟩ := writes_agree hreached hids hr hvisits rfl
  have hd : depth = some 0 := hdepth.symm.trans hdistance
  have hplace : (.numbered 1,⟨[.block [.var a (some own)]],some "a"⟩) ∈ places program :=
    List.mem_cons_self
  have hinit : place.initializing = some "a" := hlocated.only r hr _ hplace ▸ rfl
  rcases houtcome 0 hd with ⟨hother,-⟩ | ⟨-,-,-,hraise⟩
  · exact absurd hinit hother
  · exact ⟨_,_,_,_,_,_,hreached,hr,hvisits,rfl,hraise⟩

end Lox

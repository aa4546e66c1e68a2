import Lox.Proofs.Folding.Start
import Lox.Proofs.Loop.Copy
import Lox.Proofs.Session.Rejection
import Lox.Proofs.Session.Renaming
import Lox.Proofs.Session.Scoping

/-! `for` statements in a session: wherever a run comes to one, it does what its clauses say. -/
namespace Lox

open Eval

variable {runs : List Run} {programs : List (List Stmt)} {s : Session} {r : Run} {w : Work} {m : Machine} {n : Nat}

/-! ### Machines that a run comes to -/

theorem Heap.Intact.rooted {h : Heap} (hintact : h.Intact) : h.Rooted :=
  ⟨(hintact ⟨"a","b",fun _ => none⟩).root,(hintact ⟨"a","b",fun _ => none⟩).outermost⟩

theorem Session.starts_rooted (hs : s.machine.heap.Intact) {budget : Nat} {program : List Stmt}
    (hr : r ∈ s.starts budget program) : r.machine.heap.Rooted := by
  rw [starts] at hr
  split at hr
  · obtain rfl := List.mem_singleton.mp hr
    exact hs.rooted
  · cases hr

theorem Reached.rooted (h : Reached runs programs s) : ∀ r ∈ runs, r.machine.heap.Rooted := by
  induction h with
  | new output clock => simp
  | parsed _ _ ih | rejected _ _ ih | run_rejected _ _ _ ih => exact ih
  | executed budget h _ ih =>
    intro r hr
    exact (List.mem_append.mp hr).elim (Session.starts_rooted h.intact) (ih r)
  | @run _ _ s source _ _ budget h hs ih =>
    intro r hr
    have hparses := (s.announce_parses source).trans (Session.parse_parses hs)
    exact (List.mem_append.mp hr).elim (Session.starts_rooted (hparses.heap ▸ h.intact)) (ih r)

theorem Session.starts_unentered {program : List Stmt} {budget k : Nat} (h : Orderly runs programs s)
    (hprogram : program ∈ programs) (hr : r ∈ s.starts budget program) (hk : s.ids.allocated ≤ k)
    (hbound : k < 2 ^ 32) : r.machine.distances.find? (.numbered k) = none := by
  rw [starts] at hr
  split at hr
  · obtain rfl := List.mem_singleton.mp hr
    exact (h.resolved hprogram).unentered hk hbound
  · cases hr

/-- No run starts with a distance for an identity that has not been given out. -/
theorem Reached.unentered {k : Nat} (h : Reached runs programs s) (hk : s.ids.allocated ≤ k) (hbound : k < 2 ^ 32) :
    ∀ r ∈ runs, r.machine.distances.find? (.numbered k) = none := by
  induction h with
  | new output clock => simp
  | parsed _ hs ih | rejected _ hs ih => exact ih (Nat.le_trans (Session.parse_parses hs).ids hk)
  | executed budget h hprogram ih =>
    rw [Session.execute_ids] at hk
    intro r hr
    exact (List.mem_append.mp hr).elim
      (Session.starts_unentered (h.orderly (by omega)) hprogram · hk hbound) (ih hk r)
  | @run _ _ s source _ _ budget h hs ih =>
    rw [Session.run_ok hs,Session.execute_ids] at hk
    have hannounced := s.announce_parses source
    have hparses := Session.parse_parses hs
    have hle := (hannounced.trans hparses).ids
    have horderly := ((h.orderly (by omega)).parses hannounced).add hparses (Session.parse_regular hs) (by omega)
    intro r hr
    exact (List.mem_append.mp hr).elim
      (Session.starts_unentered horderly List.mem_cons_self · hk hbound) (ih (Nat.le_trans hle hk) r)
  | @run_rejected _ _ s source _ _ budget _ hs ih =>
    rw [Session.run_error hs] at hk
    exact ih (Nat.le_trans ((s.announce_parses source).trans (Session.parse_parses hs)).ids hk)

theorem Eval.exists_ok {α : Type} {x : Eval α} {a : α} (h : EStateM.run' x m = some a) : ∃ m', x m = .ok a m' := by
  rw [EStateM.run',EStateM.run] at h
  split at h
  next b m' hx =>
    obtain rfl := Option.some.inj h
    exact ⟨m',hx⟩
  next => cases h

/-- An assignment to a global name is not at fault. -/
theorem assign_global {id : ExprId} {t : Token} {v : Value} {fault : InternalFault} {m' : Machine}
    (hglobal : m.distances.find? id = none) : Eval.assign id t v m ≠ .error (.error (.internal fault)) m' := by
  have htarget := target_eq id t m
  simp only [hglobal] at htarget
  cases hholder : m.heap.holder? Heap.globals t.lexeme with
  | some j =>
    rw [hholder] at htarget
    rw [assign_ok htarget]
    simp
  | none =>
    rw [hholder] at htarget
    rw [assign_raise htarget]
    simp [Eval.raise]

/-- Where scopes and syntax tree disagree in a run, a variable is assigned to in its own initial value. -/
theorem Met.placed {fault : InternalFault} (h : Met runs r w m)
    (hstart : Met runs r (.program r.budget r.program) r.machine)
    (hhalt : w.halt? m = some (.error (.internal fault))) : ¬fault.Misplaced := by
  obtain ⟨w',m',hvisits,⟨n,id,t,e,rfl⟩,hraises⟩ := h.blame hhalt
  have hmet := Met.of_visits hstart hvisits
  cases hraises with
  | assign he hx =>
    obtain ⟨_,-,_,-,hpart⟩ := hmet.typed
    obtain ⟨-,hname,-⟩ := hpart.assign
    obtain ⟨p,hp,place,depth,-,-,hdistance,houtcome⟩ := hmet.writes he
    cases depth with
    | none => exact absurd hx (assign_global hdistance)
    | some d =>
      rcases houtcome d rfl with ⟨-,-,_,hok⟩ | ⟨-,-,-,hraise⟩
      · rw [hok] at hx
        cases hx
      · rw [hraise] at hx
        obtain rfl := Error.internal.inj (Halt.error.inj (EStateM.Result.error.inj hx).1)
        exact fun hmisplaced => hname.1 (hmisplaced t.lexeme rfl)

/-! ### `for` statements -/

theorem ForClauses.desugared_plain (c : ForClauses) : c.desugared.declared? = none := by
  obtain ⟨initializer,condition,increment,body⟩ := c
  cases initializer <;> rfl

/-- The budgets that are left for the clauses are not larger than the one of the statement, and smaller by four at
the most. -/
theorem ForClauses.same_end {c c' : ForClauses} {m' : Machine}
    (h : m.SameEnd (execute n c.desugared m) (c'.runWith (c.budgets n) m')) :
    ((execute n c.desugared).Decided m → m.SameEnd (execute n c.desugared m) (c'.run n m')) ∧
      ∀ k, k + 4 ≤ n → (c'.run k).Decided m' → m.SameEnd (execute n c.desugared m) (c'.run k m') := by
  refine ⟨fun hdecided => ?_,fun k hk hdecided => ?_⟩
  · rcases c'.runWith_continues (c.budgets_le n) m' with ⟨m₁,hx⟩ | heq
    · rw [hx] at h
      obtain ⟨m₂,hleft⟩ := h.exhausted
      exact absurd hleft (hdecided m₂)
    · rw [run,heq]
      exact h
  · rcases c'.runWith_continues (c.le_budgets hk) m' with ⟨m₁,hx⟩ | heq
    · exact absurd hx (hdecided m₁)
    · rw [run,← heq]
      exact h

/-- The identities of the programs so far have their distances in the other table too. -/
theorem Orderly.same_for (h : Orderly runs programs s) {d d' : Distances}
    (hkeeps : ∀ k, k < s.ids.allocated → d'.find? (.numbered k) = d.find? (.numbered k)) (hr : r ∈ runs) :
    Tables.SameFor ⟨d,d'⟩ (places r.program) := by
  intro o ho
  obtain ⟨k,-,hk,heq⟩ := (h.numbered r.program (h.started r hr).1).exists_number (List.mem_map_of_mem ho)
  rw [heq]
  exact hkeeps k hk

/-- As long as identities are left for them, any clauses have a copy with new ones and with distances that scoping
finds for the copy, next to those that are there in the course of a run. -/
theorem for_loop_copies (h : Reached runs programs s) (hr : r ∈ runs) (hvisits : Visits r w m) (c : ForClauses)
    {sites : List Site} (hleft : s.ids.allocated + (c.desugared.occurrences sites).length ≤ 2 ^ 32)
    (around : Surroundings) (scopes : List (Bindings Bool)) :
    ∃ (c' : ForClauses) (d : Distances), c.Copy c' ∧
      (∀ k, k < s.ids.allocated → d.find? (.numbered k) = m.distances.find? (.numbered k)) ∧
      d.Has (c'.resolved around ⟨scopes,[]⟩).findings := by
  obtain ⟨c',hcopy,hids⟩ := c.exists_copy sites s.ids.allocated
  have hfresh (i : ExprId) (hi : i ∈ (c'.desugared.occurrences sites).map Prod.fst) : m.distances.find? i = none := by
    obtain ⟨k,hk,hbound,rfl⟩ := hids.exists_number hi
    rw [hvisits.leads.distances]
    exact h.unentered hk (by omega) r hr
  obtain ⟨d,hhas,hold⟩ := ForClauses.exists_distances (hids.nodup hleft) hfresh around scopes
  exact ⟨c',d,hcopy,fun k hk => hold _ (hids.not_mem hleft (by omega) (.inl hk)),hhas⟩

/-- A run comes to a statement that the parser has made of the clauses of a `for` loop. It stands at a point of one of
the programs. There it does what a copy of the clauses does whose names are looked for at this point, in the scopes
that the clauses say, with what is found entered next to the distances of the programs so far. Both end in the same
way, when they end with their budgets, and the statement ends when the clauses do with one that is smaller by four. -/
theorem for_loop_refines (h : Reached runs programs s) (hids : s.ids.allocated ≤ 2 ^ 32) (hr : r ∈ runs)
    {c : ForClauses} (hbody : c.body.declared? = none) (hvisits : Visits r (.stmt n c.desugared) m) :
    ∃ p ∈ runs, ∃ point : Context, StmtIn p.program point c.desugared ∧
      Chain runs m.heap point.frames m.scope ∧
      ∀ (c' : ForClauses) (d : Distances), c.Copy c' →
        (∀ k, k < s.ids.allocated → d.find? (.numbered k) = m.distances.find? (.numbered k)) →
        d.Has (c'.resolved point.around ⟨point.scopes,[]⟩).findings →
        let m' : Machine := { m with distances := d }
        ((execute n c.desugared).Decided m → m.SameEnd (execute n c.desugared m) (c'.run n m')) ∧
          ∀ k, k + 4 ≤ n → (c'.run k).Decided m' → m.SameEnd (execute n c.desugared m) (c'.run k m') := by
  have horderly := h.orderly hids
  obtain ⟨earlier,hearlier,hstart⟩ := horderly.prepared r hr
  have hmet : Met earlier r (.stmt n c.desugared) m := .of_visits hstart hvisits
  obtain ⟨point,hat,-,p,hp,hpart⟩ := hmet.typed
  refine ⟨p,hearlier hp,point,hpart,hat.chain.mono hearlier,fun c' d hcopy hkeeps hhas => ?_⟩
  have ht := MachineFold.start_at hat ((h.rooted r hr).extends hvisits.leads.heap)
    fun q hq => horderly.same_for hkeeps (hearlier hq)
  have hinside : m.scope.index < m.heap.scopes.size := ht.follows.inRange
  have hframed : m.Framed ((execute n c.desugared).after m) :=
    (Eval.Frames.undeclaring _ n hpart.proper c.desugared_plain).stays m
  obtain ⟨found,hscopes,hfound⟩ := hpart.covered.findings
  have hseen : Tables.Seen ⟨m.distances,d⟩ (Scoping.stmt point.around c.desugared found).findings
      (c'.resolved point.around ⟨point.scopes,[]⟩).findings :=
    ⟨fun i x depth hi => hat.tabled p hp i x depth (hfound hi),hhas,fun e he => hat.accepted p hp e (hfound he)⟩
  have hfolds := ForClauses.folds hcopy hpart.proper hbody (by rw [hscopes]; exact .same) hseen
  have hplaced fault m' (hfault : execute n c.desugared m = .error (.error (.internal fault)) m') :
      ¬fault.Misplaced := by
    refine hmet.placed hstart ?_
    simp only [Work.halt?,hfault]
  cases n with
  | zero => exact ⟨fun hdecided => absurd rfl (hdecided m),fun k hk => absurd hk (by omega)⟩
  | succ n =>
    exact ForClauses.same_end
      (MachineFold.Ends.same (ForClauses.desugared_tracks hfolds ht n) hinside hframed hplaced)

theorem for_loop_refines_booleans :
    let a : Token := ⟨.identifier,"a",1⟩
    let clauses (i j k : Nat) : ForClauses := ⟨some (.var a (some (.literal (.boolean true)))),
      some (.variable (.numbered i) a),some (.assign (.numbered j) a (.literal (.boolean false))),
      .print (.variable (.numbered k) a)⟩
    ∃ runs programs s r m left right, ∃ d : Distances, Reached runs programs s ∧ r ∈ runs ∧
      Visits r (.stmt 10 (clauses 0 2 3).desugared) m ∧
      m.distances.find? (.numbered 3) = some 1 ∧ d.find? (.numbered 13) = some 0 ∧
      execute 10 (clauses 0 2 3).desugared m = .ok .normal left ∧
      (clauses 10 12 13).run 10 { m with distances := d } = .ok .normal right ∧ m.Beside left right := by
  intro a clauses
  let source := "for (var a = true; a; a = false) print a;"
  have htokens : (scan source).tokens =
      [⟨.kwFor,"for",1⟩,⟨.leftParen,"(",1⟩,⟨.kwVar,"var",1⟩,a,⟨.equal,"=",1⟩,⟨.kwTrue,"true",1⟩,⟨.semicolon,";",1⟩,
        a,⟨.semicolon,";",1⟩,a,⟨.equal,"=",1⟩,⟨.kwFalse,"false",1⟩,⟨.rightParen,")",1⟩,⟨.kwPrint,"print",1⟩,a,
        ⟨.semicolon,";",1⟩,.eof 1] := by decide +kernel
  have herrors : (scan source).errors = [] := by decide +kernel
  have hprogram : (Reading.ofSource source ⟨0⟩).program = .ok [(clauses 0 2 3).desugared] := by
    simp only [Reading.program,Reading.errors,Reading.ofSource,htokens,herrors]
    cbv
  let s := ((Session.new .unlimited (.startingAt 0)).read source).2
  let program : List Stmt := [(clauses 0 2 3).desugared]
  let r : Run := ⟨10,program,(s.machine.resolve program).2.note (.interpreting 1)⟩
  have hreached : Reached [r] [program] (s.execute 10 program).2 :=
    .single .unlimited (.startingAt 0) 10 hprogram
  have hallocated : (s.execute 10 program).2.ids.allocated = 4 := by
    rw [Session.execute_ids]
    simp only [s,Session.read,Reading.ofSource,htokens]
    decide +kernel
  have hvisits : Visits r (.stmt 10 (clauses 0 2 3).desugared) r.machine := .step .start .program_head
  let d := ((r.machine.distances.insert (.numbered 10) 0).insert (.numbered 12) 0).insert (.numbered 13) 0
  have hids : (s.execute 10 program).2.ids.allocated ≤ 2 ^ 32 := by omega
  obtain ⟨p,-,point,-,-,hrefines⟩ := for_loop_refines hreached hids List.mem_cons_self rfl hvisits
  have hkeeps (k : Nat) (hk : k < (s.execute 10 program).2.ids.allocated) :
      d.find? (.numbered k) = r.machine.distances.find? (.numbered k) := by
    have hne (i : Nat) (hi : 4 ≤ i) (hlt : i < 2 ^ 32) : ExprId.numbered k ≠ .numbered i := fun heq => by
      have hsame := ExprId.numbered_inj (by omega) hlt heq
      omega
    simp only [d,Distances.find?_insert]
    rw [if_neg (hne 13 (by omega) (by omega)),if_neg (hne 12 (by omega) (by omega)),
      if_neg (hne 10 (by omega) (by omega))]
  have hbody : d.find? (.numbered 13) = some 0 := by decide +kernel
  have hhas : d.Has ((clauses 10 12 13).resolved point.around ⟨point.scopes,[]⟩).findings := by
    have hfound : ((clauses 10 12 13).resolved point.around ⟨point.scopes,[]⟩).findings =
        [.occurrence (.numbered 12) "a" (some 0),.occurrence (.numbered 13) "a" (some 0),
          .occurrence (.numbered 10) "a" (some 0)] := rfl
    have hincrement : d.find? (.numbered 12) = some 0 := by decide +kernel
    have hcondition : d.find? (.numbered 10) = some 0 := by decide +kernel
    rw [hfound]
    intro i x depth hi
    simp only [List.mem_cons,List.not_mem_nil,or_false,Finding.occurrence.injEq] at hi
    rcases hi with ⟨rfl,-,rfl⟩ | ⟨rfl,-,rfl⟩ | ⟨rfl,-,rfl⟩
    · exact hincrement
    · exact hbody
    · exact hcondition
  have hcopy : (clauses 0 2 3).Copy (clauses 10 12 13) :=
    ⟨.some (.var rfl (.some .literal)),.some (.variable trivial rfl),.some (.assign trivial rfl .literal),
      .print (.variable trivial rfl)⟩
  have hflow : EStateM.run' (execute 10 (clauses 0 2 3).desugared) r.machine = some .normal := by decide +kernel
  obtain ⟨left,hleft⟩ := Eval.exists_ok hflow
  have hdecided : (execute 10 (clauses 0 2 3).desugared).Decided r.machine := fun m' h => by
    rw [hleft] at h
    cases h
  have hsame := (hrefines _ d hcopy hkeeps hhas).1 hdecided
  rw [hleft] at hsame
  generalize hright : (clauses 10 12 13).run 10 { r.machine with distances := d } = right at hsame
  cases hsame with
  | ok hbeside =>
    have hdistance : r.machine.distances.find? (.numbered 3) = some 1 := by decide +kernel
    exact ⟨_,_,_,_,_,_,_,d,hreached,List.mem_cons_self,hvisits,hdistance,hbody,hleft,hright,hbeside⟩
end Lox

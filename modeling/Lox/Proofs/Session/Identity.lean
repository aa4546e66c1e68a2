import Lox.Proofs.Run.Restored
import Lox.Proofs.Session.Rejection

/-! No two expressions of a session have the same identity, and what has once been entered for a program in
the table of distances stays there. -/
namespace Lox

variable {runs : List Run} {programs : List (List Stmt)} {p q program : List Stmt} {d : Distances} {c : Client}
  {call : Call}

/-- Running a program does not change the table. -/
theorem Machine.interpret_distances (m : Machine) (budget : Nat) (program : List Stmt) :
    (m.interpret budget program).2.distances = m.distances := by
  have hrun := (Eval.Restores.executeProgram budget program (m.note (.interpreting program.length))).distances
  simp only [Machine.interpret,Eval.after] at hrun ⊢
  split at hrun
  next heq =>
    rw [heq]
    exact (finish_eq _ _).2.2.trans hrun
  next heq =>
    rw [heq]
    exact (finish_eq _ _).2.2.trans hrun

theorem Session.execute_distances (s : Session) (budget : Nat) (program : List Stmt) :
    (s.execute budget program).2.machine.distances =
      s.machine.distances.insertAll (Lox.resolve program).occurrences := by
  rw [Session.execute_machine]
  split
  · exact Machine.interpret_distances _ _ _
  · rfl

/-! ### The programs of a client -/

/-- The program that a session makes of a text without errors. -/
def Session.tree? (s : Session) (source : String) : Option (List Stmt) := (s.parse source).1.toOption

namespace Client

/-- The program that a call has had parsed. -/
def parsed? (c : Client) : Call → Option (List Stmt)
  | .parse source => c.session.tree? source
  | .execute _ _ => none
  | .run _ source => (c.session.announce source).tree? source

/-- The program that a call has had resolved, whether or not it has been accepted. -/
def resolved? (c : Client) : Call → Option (List Stmt)
  | .parse _ => none
  | .execute _ index => c.programs[index]?
  | .run _ source => (c.session.announce source).tree? source

/-- The programs that a sequence of calls has had parsed. -/
def trees (c : Client) : List Call → List (List Stmt)
  | [] => []
  | call :: calls => (c.parsed? call).toList ++ (c.answer call).2.trees calls

end Client

/-- The identities in a program. -/
def identities (program : List Stmt) : List ExprId := (places program).map Prod.fst

theorem Session.tree?_eq_some {s : Session} {source : String} :
    s.tree? source = some program ↔ ∃ s', s.parse source = (.ok program,s') := by
  cases hs : s.parse source with
  | mk outcome s' => cases outcome <;> simp [tree?,hs,Except.toOption]

/-- A call that has a program parsed gives its expressions new identities. -/
theorem Client.parsed_regular (h : c.parsed? call = some program) :
    Stmt.ListRegular program c.session.ids.allocated (c.answer call).2.session.ids.allocated := by
  cases call with
  | parse source =>
    obtain ⟨s',hs⟩ := Session.tree?_eq_some.mp h
    rw [Client.answer_parse,hs]
    exact Session.parse_regular hs
  | execute budget index => cases h
  | run budget source =>
    obtain ⟨s',hs⟩ := Session.tree?_eq_some.mp h
    have hids : (c.answer (.run budget source)).2.session.ids = s'.ids := by
      show (c.session.run budget source).2.ids = s'.ids
      rw [Session.run_ids,hs]
    have hregular : Stmt.ListRegular program (c.session.announce source).ids.allocated s'.ids.allocated :=
      Session.parse_regular hs
    rwa [hids]

theorem Client.trees_numbered (c : Client) (calls : List Call) :
    Numbered c.session.ids.allocated (c.after calls).session.ids.allocated
      ((c.trees calls).flatMap identities) := by
  induction calls generalizing c with
  | nil => exact .nil
  | cons call calls ih =>
    have hstart := c.answer_ids call
    have hend := (c.answer call).2.after_ids calls
    simp only [trees,after,List.flatMap_append]
    refine .append ?_ (ih _) hstart hend
    cases hparsed : c.parsed? call with
    | none => exact .nil
    | some program =>
      have hnumbered : Numbered _ _ (identities program) := (Client.parsed_regular hparsed).numbered []
      simpa using hnumbered

/-! ### The table of distances -/

/-- Two tables that both have what scoping finds in a program agree on all its identities. -/
theorem Tabled.agree {d' : Distances} (h : Tabled p d) (h' : Tabled p d') (hapart : Apart programs)
    (hp : p ∈ programs) (hentered : Entered programs d) (hentered' : Entered programs d') {id : ExprId}
    (hid : id ∈ identities p) : d'.find? id = d.find? id := by
  by_cases hfound : ∃ name depth, .occurrence id name depth ∈ findings p
  · obtain ⟨name,depth,hfound⟩ := hfound
    rw [h id name depth hfound,h' id name depth hfound]
  · -- Nothing is entered for what scoping has passed over.
    have hnone {d : Distances} (hentered : Entered programs d) : d.find? id = none := by
      by_contra hsome
      obtain ⟨n,hn⟩ := Option.ne_none_iff_exists'.mp hsome
      obtain ⟨q,hq,name,hname⟩ := hentered id n hn
      obtain rfl := hapart.apart p hp q hq id hid (id_mem_places hname)
      exact hfound ⟨name,_,hname⟩
    rw [hnone hentered,hnone hentered']

/-- A client for which some programs have been resolved, whose entries are in the table. -/
structure Client.Settled (c : Client) (resolved programs : List (List Stmt)) : Prop where
  reached : ∃ runs, Lox.Reached runs programs c.session
  known : c.programs ⊆ programs
  parsed : resolved ⊆ programs
  tabled : ∀ p ∈ resolved, Tabled p c.session.machine.distances

namespace Client.Settled

variable {resolved : List (List Stmt)}

theorem new (output : Output) (clock : Clock) : (Client.new output clock).Settled [] [] :=
  ⟨⟨[],.new output clock⟩,List.Subset.refl _,List.Subset.refl _,by simp⟩

theorem execute {s : Session} {budget : Nat} (horderly : Orderly runs programs s) (hresolved : resolved ⊆ programs)
    (htabled : ∀ p ∈ resolved, Tabled p s.machine.distances) (hprogram : program ∈ programs) :
    ∀ p ∈ program :: resolved, Tabled p (s.execute budget program).2.machine.distances := by
  rw [Session.execute_distances]
  refine List.forall_mem_cons.mpr ⟨?_,fun p hp => ?_⟩
  · exact .insertAll horderly.entered horderly.apart hprogram hprogram (.inl rfl)
  · exact .insertAll horderly.entered horderly.apart hprogram (hresolved hp) (.inr (htabled p hp))

/-- Each call adds what it has had resolved. -/
theorem answer (h : c.Settled resolved programs) (call : Call)
    (hids : (c.answer call).2.session.ids.allocated ≤ 2 ^ 32) :
    (c.answer call).2.Settled ((c.resolved? call).toList ++ resolved) ((c.parsed? call).toList ++ programs) := by
  obtain ⟨⟨runs,hreached⟩,hknown,hresolved,htabled⟩ := h
  have hbefore := Nat.le_trans (c.answer_ids call) hids
  cases call with
  | parse source =>
    cases hs : c.session.parse source with
    | mk outcome s =>
      have hdistances := (Session.parse_parses hs).distances
      simp only [Client.answer,resolved?,parsed?,Session.tree?,hs]
      cases outcome with
      | ok program =>
        refine ⟨⟨runs,hreached.parsed hs⟩,List.append_subset.mpr ⟨?_,by simp [Except.toOption]⟩,?_,?_⟩
        · exact List.Subset.trans hknown (List.subset_append_right _ _)
        · exact List.Subset.trans hresolved (List.subset_append_right _ _)
        · exact hdistances ▸ htabled
      | error errors => exact ⟨⟨runs,hreached.rejected hs⟩,hknown,hresolved,hdistances ▸ htabled⟩
  | execute budget index =>
    simp only [Client.answer,resolved?,parsed?] at hids ⊢
    cases hprogram : c.programs[index]? with
    | none => exact ⟨⟨runs,hreached⟩,hknown,hresolved,htabled⟩
    | some program =>
      have hmem := hknown (List.mem_of_getElem? hprogram)
      exact ⟨⟨_,hreached.executed budget hmem⟩,hknown,List.cons_subset.mpr ⟨hmem,hresolved⟩,
        execute (hreached.orderly hbefore) hresolved htabled hmem⟩
  | run budget source =>
    cases hs : (c.session.announce source).parse source with
    | mk outcome s =>
      have hannounced := c.session.announce_parses source
      have hparses := Session.parse_parses hs
      have hdistances := (hannounced.trans hparses).distances
      simp only [Client.answer,resolved?,parsed?,Session.tree?,hs] at hids ⊢
      cases outcome with
      | ok program =>
        rw [Session.run_ok hs,Session.execute_ids] at hids
        have horderly := ((hreached.orderly hbefore).parses hannounced).add hparses (Session.parse_regular hs) hids
        have hlater : resolved ⊆ program :: programs := List.Subset.trans hresolved (List.subset_cons_self _ _)
        refine ⟨⟨_,hreached.run budget hs⟩,List.Subset.trans hknown (List.subset_cons_self _ _),
          List.cons_subset.mpr ⟨List.mem_cons_self,hlater⟩,?_⟩
        have htabled' : ∀ q ∈ program :: resolved, Tabled q (s.execute budget program).2.machine.distances :=
          execute horderly hlater (hdistances ▸ htabled) List.mem_cons_self
        rwa [← Session.run_ok hs] at htabled'
      | error errors =>
        refine ⟨⟨_,hreached.run_rejected budget hs⟩,hknown,hresolved,?_⟩
        rw [Session.run_error hs]
        exact hdistances ▸ htabled

theorem after (h : c.Settled resolved programs) (calls : List Call)
    (hids : (c.after calls).session.ids.allocated ≤ 2 ^ 32) :
    ∃ resolved' programs', (c.after calls).Settled resolved' programs' ∧ resolved ⊆ resolved' ∧
      programs ⊆ programs' := by
  induction calls generalizing c resolved programs with
  | nil => exact ⟨resolved,programs,h,List.Subset.refl _,List.Subset.refl _⟩
  | cons call calls ih =>
    have hanswer := h.answer call (Nat.le_trans (Client.after_ids _ calls) hids)
    obtain ⟨resolved',programs',hafter,hresolved,hprograms⟩ := ih hanswer hids
    exact ⟨resolved',programs',hafter,List.Subset.trans (List.subset_append_right _ _) hresolved,
      List.Subset.trans (List.subset_append_right _ _) hprograms⟩

end Client.Settled

theorem Client.after_append (c : Client) (earlier later : List Call) :
    c.after (earlier ++ later) = (c.after earlier).after later := by
  induction earlier generalizing c with
  | nil => rfl
  | cons call earlier ih => exact ih _

/-- While identities last, all expressions in the programs of a session have different ones, and as soon as a
program has been resolved, the table has for its expressions what scoping has found, whatever calls come
later. -/
theorem identities_stable (output : Output) (clock : Clock) (calls : List Call)
    (hids : ((Client.new output clock).after calls).session.ids.allocated ≤ 2 ^ 32) :
    let c := Client.new output clock
    ((c.trees calls).flatMap identities).Nodup ∧
      ∀ earlier call later p, calls = earlier ++ call :: later → (c.after earlier).resolved? call = some p →
        let d := ((c.after earlier).answer call).2.session.machine.distances
        Tabled p d ∧
          ∀ id ∈ identities p, (c.after calls).session.machine.distances.find? id = d.find? id := by
  intro c
  refine ⟨(c.trees_numbered calls).nodup hids,?_⟩
  rintro earlier call later p rfl hresolved d
  rw [Client.after_append] at hids ⊢
  have hanswered := Nat.le_trans (Client.after_ids _ later) hids
  have hbefore := Nat.le_trans (Client.answer_ids _ call) hanswered
  obtain ⟨resolved,programs,hearlier,-,-⟩ := (Client.Settled.new output clock).after earlier hbefore
  have hanswer := hearlier.answer call hanswered
  obtain ⟨resolved',programs',hlater,hkept,hprograms⟩ := hanswer.after later hids
  have hp : p ∈ ((c.after earlier).resolved? call).toList ++ resolved :=
    List.mem_append_left _ (by simp [hresolved])
  have htabled := hanswer.tabled p hp
  refine ⟨htabled,fun id hid => ?_⟩
  obtain ⟨_,hreached⟩ := hanswer.reached
  obtain ⟨_,hreached'⟩ := hlater.reached
  have horderly := hreached'.orderly hids
  -- The entries of both tables come from programs that have been parsed in the end.
  have hentered : Entered programs' d := fun id n hn =>
    let ⟨q,hq,hname⟩ := (hreached.orderly hanswered).entered id n hn
    ⟨q,hprograms hq,hname⟩
  exact htabled.agree (hlater.tabled p (hkept hp)) horderly.apart (hlater.parsed (hkept hp)) hentered
    horderly.entered hid

/-- Neither a text that cannot be parsed nor a program that is rejected changes an entry. -/
theorem identities_stable_closure :
    let c := Client.new .unlimited (.startingAt 0)
    let call : Call := .run 64 "\x7b var a; fun f() \x7b return a; \x7d f(); \x7d"
    let calls : List Call := [.parse "return this;",call,.parse "a b",.execute 64 0]
    (c.after calls).session.ids.allocated ≤ 2 ^ 32 ∧ ((c.trees calls).flatMap identities).Nodup ∧
      (c.after calls).session.machine.distances.find? (.numbered 1) = some 1 := by
  intro c call calls
  have hids : (c.after calls).session.ids.allocated ≤ 2 ^ 32 := by decide +kernel
  obtain ⟨hnodup,hstable⟩ := identities_stable .unlimited (.startingAt 0) calls hids
  have hidentities : ((c.after [.parse "return this;"]).resolved? call).map identities =
      some [.numbered 1,.numbered 2] := by decide +kernel
  obtain ⟨p,hresolved,hp⟩ := Option.map_eq_some_iff.mp hidentities
  obtain ⟨-,hentry⟩ := hstable [.parse "return this;"] call [.parse "a b",.execute 64 0] p rfl hresolved
  have hmade : ((c.after [.parse "return this;"]).answer call).2.session.machine.distances.find?
      (.numbered 1) = some 1 := by decide +kernel
  exact ⟨hids,hnodup,(hentry (.numbered 1) (by simp [hp])).trans hmade⟩

end Lox

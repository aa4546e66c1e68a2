import Lox.Proofs.Session.Alike

/-! A call that ends with a compile error cannot be noticed afterwards: all later calls give the same answers
and print the same as if it had not been made. -/
namespace Lox

/-! ### Clients -/

/-- What a client can ask of a session. Programs are named by their place among those that the client has had
parsed. -/
inductive Call
  | parse (source : String)
  | execute (budget : Nat) (index : Nat)
  | run (budget : Nat) (source : String)

inductive Response
  | parsed (program : List Stmt)
  | rejected (errors : List Error)
  | ended (status : Status)
  | unknown

/-- A session with the programs that have been parsed for a client. -/
structure Client where
  session : Session
  programs : List (List Stmt)

namespace Client

def new (output : Output) (clock : Clock) : Client := ⟨.new output clock,[]⟩

def answer (c : Client) : Call → Response × Client
  | .parse source => match c.session.parse source with
    | (.ok program,s) => (.parsed program,⟨s,c.programs ++ [program]⟩)
    | (.error errors,s) => (.rejected errors,{ c with session := s })
  | .execute budget index => match c.programs[index]? with
    | none => (.unknown,c)
    | some program =>
      let (status,s) := c.session.execute budget program
      (.ended status,{ c with session := s })
  | .run budget source =>
    let (status,s) := c.session.run budget source
    (.ended status,{ c with session := s })

/-- The client after a sequence of calls. -/
def after (c : Client) : List Call → Client
  | [] => c
  | call :: calls => (c.answer call).2.after calls

/-- The response to each call, with everything that has been printed when it is given. -/
def answers (c : Client) : List Call → List (Response × ByteArray)
  | [] => []
  | call :: calls =>
    ((c.answer call).1,(c.answer call).2.session.machine.output.written) :: (c.answer call).2.answers calls

end Client

/-- The same tokens, with any identities. -/
def Likeness.renumbered : Likeness where
  id _ _ := True
  token t t' := t' = t
  kind h := by rw [h]
  lexeme h := by rw [h]
  eof := rfl

/-- The same response, up to the identities in a program. -/
inductive Response.Alike : Response → Response → Prop
  | parsed {program program'} : Stmt.ListAlike .renumbered program program' →
      Alike (.parsed program) (.parsed program')
  | rejected {errors} : Alike (.rejected errors) (.rejected errors)
  | ended {status} : Alike (.ended status) (.ended status)
  | unknown : Alike .unknown .unknown

/-! ### Identities -/

/-- Identities from the `n`-th on are ahead by some number. Those that only a rejected program has are not
compared. -/
def Likeness.skipping (n lead : Nat) (dead : List ExprId) : Likeness where
  id i i' := i ∉ dead ∧
    ∃ k, k + lead < 2 ^ 32 ∧ i = .numbered k ∧ i' = .numbered (if k < n then k else k + lead)
  token t t' := t' = t
  kind h := by rw [h]
  lexeme h := by rw [h]
  eof := rfl

theorem ExprId.numbered_add {j k : Nat} (h : numbered j = numbered k) (n : Nat) :
    numbered (j + n) = numbered (k + n) := by
  have hindex := congrArg ExprId.index h
  simp only [numbered] at hindex ⊢
  rw [UInt32.ofNat_add,UInt32.ofNat_add,hindex]

section

variable {n lead : Nat} {dead : List ExprId}

theorem Likeness.skipping_distinguishes :
    (skipping n lead []).Distinguishes (skipping n lead dead) := by
  rintro _ _ _ _ ⟨-,k,hk,rfl,rfl⟩ ⟨-,l,hl,rfl,rfl⟩
  constructor
  · intro heq
    have hnumber := ExprId.numbered_inj (by split <;> omega) (by split <;> omega) heq
    have hsame : l = k := by
      split at hnumber <;> split at hnumber <;> omega
    rw [hsame]
  · intro heq
    rw [ExprId.numbered_inj (by omega) (by omega) heq]

/-- The second of two supplies of identities is ahead by some number. -/
def Likeness.ahead (lead : Nat) : Likeness where
  id i i' := ∃ k, i = .numbered k ∧ i' = .numbered (k + lead)
  token t t' := t' = t
  kind h := by rw [h]
  lexeme h := by rw [h]
  eof := rfl

/-- New identities are not among those that are left out. -/
theorem Likeness.skipping_of_ahead {i i' : ExprId} {low high : Nat} {ids : List ExprId}
    (h : (ahead lead).id i i') (hi : i ∈ ids) (hids : Numbered low high ids) (hlow : n ≤ low)
    (hhigh : high + lead ≤ 2 ^ 32) (hdead : ∀ j ∈ dead, ∃ k < n, j = .numbered k) :
    (skipping n lead dead).id i i' := by
  obtain ⟨k,hk,hk',rfl⟩ := hids.exists_number hi
  obtain ⟨l,hl,rfl⟩ := h
  refine ⟨fun hmem => ?_,k,by omega,rfl,?_⟩
  · obtain ⟨j,hj,heq⟩ := hdead _ hmem
    have hsame := ExprId.numbered_inj (by omega) (by omega) heq
    omega
  · rw [if_neg (by omega)]
    exact (ExprId.numbered_add hl lead).symm

end

/-- The same outcome of parsing, with programs that are alike. -/
inductive Parsing.Alike (l : Likeness) :
    Except (List Error) (List Stmt) → Except (List Error) (List Stmt) → Prop
  | ok {program program'} : Stmt.ListAlike l program program' → Parsing.Alike l (.ok program) (.ok program')
  | error {errors} : Parsing.Alike l (.error errors) (.error errors)

variable {s s' : Session} {source : String} {program : List Stmt} {n lead : Nat} {dead : List ExprId}

/-- A text is parsed in the same way when other identities are given out. -/
theorem Session.parse_skipping (hids : s'.ids.allocated = s.ids.allocated + lead) (hn : n ≤ s.ids.allocated)
    (hdead : ∀ i ∈ dead, ∃ k < n, i = .numbered k) (hbound : (s'.parse source).2.ids.allocated ≤ 2 ^ 32) :
    Parsing.Alike (.skipping n lead dead) (s.parse source).1 (s'.parse source).1 ∧
      (s'.parse source).2.ids.allocated = (s.parse source).2.ids.allocated + lead := by
  have htokens : List.Forall₂ (Likeness.ahead lead).token (scan source).tokens (scan source).tokens :=
    List.forall₂_same.mpr fun _ _ => rfl
  obtain ⟨hstatements,herrors,hallocated⟩ := parse_alike htokens hids fun k _ => ⟨k,rfl,rfl⟩
  have herrors' := Error.Alike.all_eq (fun _ _ => id) herrors
  have hread (t : Session) : (t.parse source).2 = (t.read source).2 := Session.parse_read rfl
  rw [hread] at hbound
  rw [hread,hread]
  refine ⟨?_,hallocated⟩
  have hsame : (Reading.ofSource source s'.ids).errors = (Reading.ofSource source s.ids).errors :=
    congrArg ((scan source).errors ++ ·) herrors'
  by_cases hempty : (Reading.ofSource source s.ids).errors.isEmpty
  · have hok : s.parse source = (.ok (Lox.parse (scan source).tokens s.ids).statements,(s.read source).2) := by
      rw [Session.parse_eq,Reading.program,if_pos hempty]
      rfl
    have hok' : s'.parse source = (.ok (Lox.parse (scan source).tokens s'.ids).statements,(s'.read source).2) := by
      rw [Session.parse_eq,Reading.program,hsame,if_pos hempty]
      rfl
    rw [hok,hok']
    refine .ok (hstatements.relike (fun _ _ => id) fun o ho i' hi => ?_)
    have hnumbered := (Session.parse_regular hok).numbered []
    have hhigh : (s.read source).2.ids.allocated + lead ≤ 2 ^ 32 := hallocated ▸ hbound
    exact Likeness.skipping_of_ahead hi (List.mem_map_of_mem ho) hnumbered hn hhigh hdead
  · have hparsed : (Reading.ofSource source s'.ids).parsed.errors =
        (Reading.ofSource source s.ids).parsed.errors := herrors'
    have hscan : (Reading.ofSource source s'.ids).scan = (Reading.ofSource source s.ids).scan := rfl
    have hreport : (Reading.ofSource source s'.ids).report = (Reading.ofSource source s.ids).report := by
      rw [Reading.report,Reading.report,hsame,hparsed,hscan]
    have herror : s.parse source = (.error (Reading.ofSource source s.ids).report,(s.read source).2) := by
      rw [Session.parse_eq,Reading.program,if_neg hempty]
    have herror' : s'.parse source = (.error (Reading.ofSource source s.ids).report,(s'.read source).2) := by
      rw [Session.parse_eq,Reading.program,hsame,if_neg hempty,hreport]
    rw [herror,herror']
    exact .error

/-! ### Two histories -/

/-- Two sessions that have done the same, of which the second one has given out more identities before the
`n`-th of its own. -/
structure Session.Twins (n lead : Nat) (dead : List ExprId) (s s' : Session) : Prop where
  machine : s.machine.Alike (.same (.skipping n lead dead)) s'.machine
  ids : s'.ids.allocated = s.ids.allocated + lead
  behind : n ≤ s.ids.allocated
  dead : ∀ i ∈ dead, ∃ k < n, i = .numbered k

/-- Programs that differ in their identities only. If they are accepted, their identities are compared. -/
structure Stmt.Twins (n lead : Nat) (dead : List ExprId) (program program' : List Stmt) : Prop where
  alike : Stmt.ListAlike (.skipping n lead []) program program'
  accepted : (resolve program).errors = [] → Stmt.ListAlike (.skipping n lead dead) program program'

theorem Stmt.Twins.of_alike {program' : List Stmt}
    (h : Stmt.ListAlike (.skipping n lead dead) program program') : Stmt.Twins n lead dead program program' where
  alike := h.relike (fun _ _ => id) fun _ _ _ hi => ⟨List.not_mem_nil,hi.2⟩
  accepted _ := h

theorem Session.run_ids (s : Session) (budget : Nat) (source : String) :
    (s.run budget source).2.ids = ((s.announce source).parse source).2.ids := by
  cases hs : (s.announce source).parse source with
  | mk outcome s₁ =>
    cases outcome with
    | ok program => rw [run_ok hs,execute_ids]
    | error errors => rw [run_error hs]

theorem Client.answer_parse (c : Client) (source : String) :
    (c.answer (.parse source)).2.session = (c.session.parse source).2 := by
  simp only [answer]
  split
  next hs => rw [hs]
  next hs => rw [hs]

theorem Client.answer_ids (c : Client) (call : Call) :
    c.session.ids.allocated ≤ (c.answer call).2.session.ids.allocated := by
  cases call with
  | parse source =>
    rw [Client.answer_parse]
    exact (Session.parse_parses rfl).ids
  | execute budget index =>
    simp only [Client.answer]
    split
    next => exact Nat.le_refl _
    next => exact Nat.le_of_eq (congrArg ExprIds.allocated (Session.execute_ids _ _ _).symm)
  | run budget source =>
    show c.session.ids.allocated ≤ (c.session.run budget source).2.ids.allocated
    rw [Session.run_ids]
    exact ((c.session.announce_parses source).trans (Session.parse_parses rfl)).ids

theorem Client.after_ids (c : Client) (calls : List Call) :
    c.session.ids.allocated ≤ (c.after calls).session.ids.allocated := by
  induction calls generalizing c with
  | nil => exact Nat.le_refl _
  | cons call calls ih => exact Nat.le_trans (c.answer_ids call) (ih _)

namespace Session.Twins

variable {budget : Nat}

theorem announce (h : Twins n lead dead s s') (source : String) :
    Twins n lead dead (s.announce source) (s'.announce source) :=
  ⟨h.machine.note _ _,h.ids,h.behind,h.dead⟩

theorem parse (h : Twins n lead dead s s') (hbound : (s'.parse source).2.ids.allocated ≤ 2 ^ 32) :
    Parsing.Alike (.skipping n lead dead) (s.parse source).1 (s'.parse source).1 ∧
      Twins n lead dead (s.parse source).2 (s'.parse source).2 := by
  obtain ⟨houtcome,hids⟩ := parse_skipping h.ids h.behind h.dead hbound
  have hread (t : Session) : (t.parse source).2 = (t.read source).2 := Session.parse_read rfl
  have hbehind : s.ids.allocated ≤ (s.parse source).2.ids.allocated := (parse_parses rfl).ids
  refine ⟨houtcome,?_,hids,Nat.le_trans h.behind hbehind,h.dead⟩
  rw [hread,hread]
  exact h.machine.noteAll _ _

theorem execute {program' : List Stmt} (h : Twins n lead dead s s') (budget : Nat)
    (hp : Stmt.Twins n lead dead program program') :
    (s'.execute budget program').1 = (s.execute budget program).1 ∧
      Twins n lead dead (s.execute budget program).2 (s'.execute budget program').2 := by
  obtain ⟨hstatus,hmachine⟩ := execute_alike h.machine hp.alike (fun _ _ => id)
    Likeness.skipping_distinguishes hp.accepted
    (Correspondence.same_complete _ (s.execute budget program).2.machine.heap)
  refine ⟨hstatus.eq fun _ _ => id,hmachine,?_,?_,h.dead⟩
  · rw [execute_ids,execute_ids]
    exact h.ids
  · rw [execute_ids]
    exact h.behind

theorem run (h : Twins n lead dead s s') (hbound : (s'.run budget source).2.ids.allocated ≤ 2 ^ 32) :
    (s'.run budget source).1 = (s.run budget source).1 ∧
      Twins n lead dead (s.run budget source).2 (s'.run budget source).2 := by
  rw [run_ids] at hbound
  obtain ⟨houtcome,htwins⟩ := (h.announce source).parse hbound
  cases hs : (s.announce source).parse source with
  | mk outcome s₁ =>
    cases hs' : (s'.announce source).parse source with
    | mk outcome' s₁' =>
      rw [hs,hs'] at houtcome htwins
      cases houtcome with
      | ok hp =>
        rw [run_ok hs,run_ok hs']
        exact htwins.execute budget (.of_alike hp)
      | error =>
        rw [run_error hs,run_error hs']
        exact ⟨rfl,htwins⟩

end Session.Twins

structure Client.Twins (n lead : Nat) (dead : List ExprId) (c c' : Client) : Prop where
  session : c.session.Twins n lead dead c'.session
  programs : List.Forall₂ (Stmt.Twins n lead dead) c.programs c'.programs

namespace Client.Twins

variable {c c' : Client}

/-- Each call is answered in the same way. -/
theorem answer (h : Twins n lead dead c c') {call : Call}
    (hbound : (c'.answer call).2.session.ids.allocated ≤ 2 ^ 32) :
    (c.answer call).1.Alike (c'.answer call).1 ∧ Twins n lead dead (c.answer call).2 (c'.answer call).2 := by
  cases call with
  | parse source =>
    rw [answer_parse] at hbound
    obtain ⟨houtcome,htwins⟩ := h.session.parse hbound
    simp only [Client.answer]
    cases hs : c.session.parse source with
    | mk outcome s₁ =>
      cases hs' : c'.session.parse source with
      | mk outcome' s₁' =>
        rw [hs,hs'] at houtcome htwins
        cases houtcome with
        | ok hp =>
          refine ⟨.parsed (hp.relike (fun _ _ => id) fun _ _ _ _ => trivial),htwins,?_⟩
          exact List.rel_append h.programs (.cons (.of_alike hp) .nil)
        | error => exact ⟨.rejected,htwins,h.programs⟩
  | execute budget index =>
    obtain ⟨hlength,hget⟩ := List.forall₂_iff_get.mp h.programs
    by_cases hi : index < c.programs.length
    · have hi' : index < c'.programs.length := hlength ▸ hi
      obtain ⟨hstatus,htwins⟩ := h.session.execute budget (hget index hi hi')
      simp only [Client.answer,List.getElem?_eq_getElem hi,List.getElem?_eq_getElem hi']
      refine ⟨?_,htwins,h.programs⟩
      exact hstatus ▸ .ended
    · have hi' : ¬index < c'.programs.length := hlength ▸ hi
      simp only [Client.answer,List.getElem?_eq_none (Nat.le_of_not_lt hi),
        List.getElem?_eq_none (Nat.le_of_not_lt hi')]
      exact ⟨.unknown,h⟩
  | run budget source =>
    obtain ⟨hstatus,htwins⟩ := h.session.run hbound
    simp only [Client.answer,hstatus]
    exact ⟨.ended,htwins,h.programs⟩

theorem written (h : Twins n lead dead c c') :
    c'.session.machine.output.written = c.session.machine.output.written := by
  obtain ⟨w,hw,hw'⟩ := h.session.machine.output.written
  exact hw'.trans hw.symm

/-- All further calls are answered in the same way. -/
theorem answers {calls : List Call} (h : Twins n lead dead c c')
    (hbound : (c'.after calls).session.ids.allocated ≤ 2 ^ 32) :
    List.Forall₂ (fun a a' => a.1.Alike a'.1 ∧ a'.2 = a.2) (c.answers calls) (c'.answers calls) := by
  induction calls generalizing c c' with
  | nil => exact .nil
  | cons call calls ih =>
    have hids := Client.after_ids (c'.answer call).2 calls
    obtain ⟨hresponse,htwins⟩ := h.answer (Nat.le_trans hids hbound)
    exact .cons ⟨hresponse,htwins.written⟩ (ih htwins hbound)

end Client.Twins

/-! ### The rejected call -/

/-- The sessions that clients have are reached by calls, and so are their programs. -/
def Client.Reached (c : Client) : Prop :=
  ∃ runs programs, Lox.Reached runs programs c.session ∧ c.programs ⊆ programs

theorem Client.Reached.answer {c : Client} (h : c.Reached) (call : Call) : (c.answer call).2.Reached := by
  obtain ⟨runs,programs,hreached,hprograms⟩ := h
  cases call with
  | parse source =>
    simp only [Client.answer]
    split
    next program s hs =>
      refine ⟨runs,program :: programs,hreached.parsed hs,List.append_subset.mpr ⟨?_,by simp⟩⟩
      exact List.Subset.trans hprograms (List.subset_cons_self _ _)
    next errors s hs => exact ⟨runs,programs,hreached.rejected hs,hprograms⟩
  | execute budget index =>
    simp only [Client.answer]
    split
    next => exact ⟨runs,programs,hreached,hprograms⟩
    next program hprogram =>
      exact ⟨_,programs,hreached.executed budget (hprograms (List.mem_of_getElem? hprogram)),hprograms⟩
  | run budget source =>
    cases hs : (c.session.announce source).parse source with
    | mk outcome s =>
      cases outcome with
      | ok program =>
        refine ⟨_,program :: programs,hreached.run budget hs,?_⟩
        exact List.Subset.trans hprograms (List.subset_cons_self _ _)
      | error errors => exact ⟨runs,programs,hreached.run_rejected budget hs,hprograms⟩

theorem Client.Reached.after {c : Client} (h : c.Reached) (calls : List Call) : (c.after calls).Reached := by
  induction calls generalizing c with
  | nil => exact h
  | cons call calls ih => exact ih (h.answer call)

/-- Only the entries of a program's own identities are made when it is resolved. -/
theorem Distances.find?_resolved {d : Distances} {id : ExprId} (h : id ∉ (places program).map Prod.fst) :
    (d.insertAll (resolve program).occurrences).find? id = d.find? id := by
  refine insertAll_apart ?_ d
  rintro ⟨_,name,distance⟩ ho rfl
  exact h (id_mem_places (mem_occurrences.mp ho))

variable {runs : List Run} {programs : List (List Stmt)}

/-- No distance is entered for an identity that has not been given out. -/
theorem Orderly.unentered (h : Orderly runs programs s) {k : Nat} (hk : s.ids.allocated ≤ k) (hbound : k < 2 ^ 32) :
    s.machine.distances.find? (.numbered k) = none := by
  by_contra hsome
  obtain ⟨n,hn⟩ := Option.ne_none_iff_exists'.mp hsome
  obtain ⟨p,hp,name,hname⟩ := h.entered _ n hn
  exact (h.numbered p hp).not_mem (by omega) hbound (.inr hk) (id_mem_places hname)

/-- The programs of a session are alike themselves, apart from what is left out. -/
theorem Reached.skips (h : Reached runs programs s) (hbound : s.ids.allocated + lead ≤ 2 ^ 32)
    (hp : program ∈ programs) (hdead : ∀ o ∈ places program, o.1 ∉ dead) :
    Stmt.ListAlike (.skipping s.ids.allocated lead dead) program program := by
  refine (h.programs_same program hp).relike (fun _ _ ht => ht.1) fun o ho i' hi => ?_
  obtain ⟨rfl,-⟩ := hi
  obtain ⟨k,-,hk,heq⟩ := ((h.orderly (by omega)).numbered program hp).exists_number (List.mem_map_of_mem ho)
  refine ⟨hdead o ho,k,by omega,heq,?_⟩
  rw [if_pos hk,heq]

/-- A session and one that has given out more identities and entered distances for these or for those that
are left out. -/
theorem Reached.twins {d : Distances} {log : List Event} (h : Reached runs programs s)
    (hm : s'.machine = { s.machine with distances := d, log := log })
    (hids : s'.ids.allocated = s.ids.allocated + lead) (hbound : s'.ids.allocated ≤ 2 ^ 32)
    (hdead : ∀ i ∈ dead, ∃ k < s.ids.allocated, i = .numbered k)
    (hlive : ∀ p ∈ programs, (resolve p).errors = [] → ∀ o ∈ places p, o.1 ∉ dead)
    (hd : ∀ i i', (Likeness.skipping s.ids.allocated lead dead).id i i' →
      d.find? i' = s.machine.distances.find? i') :
    s.Twins s.ids.allocated lead dead s' := by
  have horderly := h.orderly (by omega)
  let live (id : ExprId) : Prop := id ∉ dead ∧ ∃ k < s.ids.allocated, id = .numbered k
  have hruns (r : Run) (hr : r ∈ runs) (o : ExprId × Place) (ho : o ∈ places r.program) : live o.1 := by
    obtain ⟨hprogram,haccepted⟩ := horderly.started r hr
    refine ⟨hlive r.program hprogram (accepted_iff.mpr haccepted) o ho,?_⟩
    obtain ⟨k,-,hk,heq⟩ := (horderly.numbered r.program hprogram).exists_number (List.mem_map_of_mem ho)
    exact ⟨k,hk,heq⟩
  have hsame := h.same hruns
  have hheap : s.machine.heap.Alike (.same (.skipping s.ids.allocated lead dead)) s.machine.heap := by
    refine Correspondence.relike hsame.heap (fun _ _ ht => ht.1) fun i i' hi => ?_
    obtain ⟨rfl,hnot,k,hk,rfl⟩ := hi
    refine ⟨hnot,k,by omega,rfl,?_⟩
    rw [if_pos hk]
  have hdistances (i i' : ExprId) (hi : (Likeness.skipping s.ids.allocated lead dead).id i i') :
      d.find? i' = s.machine.distances.find? i := by
    rw [hd i i' hi]
    obtain ⟨-,k,hk,rfl,rfl⟩ := hi
    split
    · rfl
    · rw [horderly.unentered (by omega) (by omega),horderly.unentered (by omega) (by omega)]
  refine ⟨?_,hids,Nat.le_refl _,hdead⟩
  rw [hm]
  refine ⟨⟨hheap,hdistances,?_,hsame.clock⟩,hsame.scope,hsame.exists_scope,rfl⟩
  exact ⟨rfl,rfl,hsame.output.written,hsame.output.room⟩

/-- A session and the one after a call that has failed. -/
structure Session.Failed (programs : List (List Stmt)) (s s' : Session) : Prop where
  unchanged : ∃ d log, s'.machine = { s.machine with distances := d, log := log }
  twins : ∃ lead dead, s.Twins s.ids.allocated lead dead s' ∧
    ∀ p ∈ programs, (resolve p).errors = [] → ∀ o ∈ places p, o.1 ∉ dead

/-- An execution that fails enters distances for identities that only the rejected program has. -/
theorem Reached.execute_failed {budget : Nat} (h : Reached runs programs s)
    (hbound : s.ids.allocated ≤ 2 ^ 32) (hprogram : program ∈ programs)
    (hrejected : (resolve program).errors ≠ []) :
    Session.Failed programs s (s.execute budget program).2 := by
  have horderly := h.orderly hbound
  rw [Session.execute_rejected hrejected]
  have hlive : ∀ p ∈ programs, (resolve p).errors = [] →
      ∀ o ∈ places p, o.1 ∉ (places program).map Prod.fst := by
    intro p hp haccepted o ho hdead
    obtain rfl := horderly.apart.apart p hp program hprogram o.1 (List.mem_map_of_mem ho) hdead
    exact hrejected haccepted
  have hdead : ∀ i ∈ (places program).map Prod.fst, ∃ k < s.ids.allocated, i = .numbered k := by
    intro i hi
    obtain ⟨k,-,hk,heq⟩ := (horderly.numbered program hprogram).exists_number hi
    exact ⟨k,hk,heq⟩
  refine ⟨⟨_,_,rfl⟩,0,_,h.twins rfl rfl hbound hdead hlive fun i i' hi => ?_,hlive⟩
  obtain ⟨hnot,k,-,rfl,rfl⟩ := hi
  exact Distances.find?_resolved (by simpa using hnot)

/-- A run that fails gives out identities, and may enter distances for them. -/
theorem Reached.run_failed {budget : Nat} {errors : List Error} (h : Reached runs programs s)
    (hbound : (s.run budget source).2.ids.allocated ≤ 2 ^ 32)
    (hfailed : (s.run budget source).1 = .compileError errors) :
    Session.Failed programs s (s.run budget source).2 := by
  cases hs : (s.announce source).parse source with
  | mk outcome s₁ =>
    have hread : s₁ = ((s.announce source).read source).2 := Session.parse_read hs
    have hle : s.ids.allocated ≤ s₁.ids.allocated :=
      ((s.announce_parses source).trans (Session.parse_parses hs)).ids
    have hlead : s₁.ids.allocated = s.ids.allocated + (s₁.ids.allocated - s.ids.allocated) := by omega
    have hlive : ∀ p ∈ programs, (resolve p).errors = [] → ∀ o ∈ places p, o.1 ∉ [] :=
      fun _ _ _ _ _ => List.not_mem_nil
    cases outcome with
    | error errors =>
      rw [Session.run_error hs] at hbound ⊢
      have hmachine : ∃ log, s₁.machine = { s.machine with distances := s.machine.distances, log := log } :=
        hread ▸ ⟨_,rfl⟩
      obtain ⟨log,hmachine⟩ := hmachine
      exact ⟨⟨_,_,hmachine⟩,_,[],h.twins hmachine hlead hbound (by simp) hlive fun _ _ _ => rfl,hlive⟩
    | ok program =>
      rw [Session.run_ok hs] at hbound hfailed ⊢
      obtain ⟨hne,rfl⟩ := Session.execute_compileError.mp hfailed
      rw [Session.execute_rejected hne] at hbound ⊢
      have hmachine : ∃ log, (s₁.machine.resolve program).2 = { s.machine with
          distances := s.machine.distances.insertAll (resolve program).occurrences, log := log } :=
        hread ▸ ⟨_,rfl⟩
      obtain ⟨log,hmachine⟩ := hmachine
      refine ⟨⟨_,_,hmachine⟩,_,[],h.twins hmachine hlead hbound (by simp) hlive fun i i' hi => ?_,hlive⟩
      obtain ⟨-,k,hk,rfl,rfl⟩ := hi
      apply Distances.find?_resolved
      have hnumbered : Numbered s.ids.allocated s₁.ids.allocated ((places program).map Prod.fst) :=
        (Session.parse_regular hs).numbered []
      have hbound' : s₁.ids.allocated ≤ 2 ^ 32 := hbound
      exact hnumbered.not_mem hbound' (by split <;> omega) (by split <;> omega)

/-- A call that fails changes nothing but the distances and the log, and the session is a twin of the one
without it. -/
theorem Client.Reached.rejected {c : Client} {call : Call} {errors : List Error} (h : c.Reached)
    (hcall : (c.answer call).1 = .ended (.compileError errors))
    (hbound : (c.answer call).2.session.ids.allocated ≤ 2 ^ 32) :
    (c.answer call).2.programs = c.programs ∧
      (∃ d log, (c.answer call).2.session.machine = { c.session.machine with distances := d, log := log }) ∧
      ∃ n lead dead, Twins n lead dead c (c.answer call).2 := by
  obtain ⟨runs,programs,hreached,hprograms⟩ := h
  have hfailed {s' : Session} (hs : Session.Failed programs c.session s') (hbound : s'.ids.allocated ≤ 2 ^ 32) :
      (∃ d log, s'.machine = { c.session.machine with distances := d, log := log }) ∧
        ∃ n lead dead, Twins n lead dead c ⟨s',c.programs⟩ := by
    obtain ⟨hunchanged,lead,dead,htwins,hlive⟩ := hs
    rw [htwins.ids] at hbound
    refine ⟨hunchanged,_,lead,dead,htwins,List.forall₂_same.mpr fun p hp => ⟨?_,fun haccepted => ?_⟩⟩
    · exact hreached.skips hbound (hprograms hp) fun _ _ => List.not_mem_nil
    · exact hreached.skips hbound (hprograms hp) (hlive p (hprograms hp) haccepted)
  cases call with
  | parse source =>
    simp only [Client.answer] at hcall
    split at hcall <;> cases hcall
  | execute budget index =>
    simp only [Client.answer] at hcall hbound ⊢
    split at hcall
    next => cases hcall
    next program hprogram =>
      simp only [hprogram] at hbound ⊢
      obtain ⟨hne,rfl⟩ := Session.execute_compileError.mp (Response.ended.inj hcall)
      have hold : c.session.ids.allocated ≤ 2 ^ 32 := by rwa [Session.execute_ids] at hbound
      refine ⟨trivial,hfailed (hreached.execute_failed hold ?_ hne) hbound⟩
      exact hprograms (List.mem_of_getElem? hprogram)
  | run budget source => exact ⟨rfl,hfailed (hreached.run_failed hbound (Response.ended.inj hcall)) hbound⟩

/-- A run or an execution that ends with a compile error changes nothing of a session but the table of
distances and the log. All calls after it are answered and print as if it had not been made, while identities
last. -/
theorem rejection_unobservable (output : Output) (clock : Clock) {history later : List Call} {failing : Call}
    {errors : List Error}
    (hfailing : (((Client.new output clock).after history).answer failing).1 = .ended (.compileError errors))
    (hids : ((((Client.new output clock).after history).answer failing).2.after later).session.ids.allocated
      ≤ 2 ^ 32) :
    let c := (Client.new output clock).after history
    let c' := (c.answer failing).2
    c'.programs = c.programs ∧
      (∃ d log, c'.session.machine = { c.session.machine with distances := d, log := log }) ∧
      List.Forall₂ (fun a a' => a.1.Alike a'.1 ∧ a'.2 = a.2) (c.answers later) (c'.answers later) := by
  have hnew : (Client.new output clock).Reached := ⟨[],[],.new output clock,List.Subset.refl _⟩
  have hbound := Nat.le_trans (Client.after_ids _ later) hids
  obtain ⟨hprograms,hunchanged,n,lead,dead,htwins⟩ := (hnew.after history).rejected hfailing hbound
  exact ⟨hprograms,hunchanged,htwins.answers hids⟩

theorem rejection_unobservable_return :
    let c := (Client.new .unlimited (.startingAt 0)).after
      [.parse "return;",.run 64 "var a = true; fun f() \x7b return a; \x7d"]
    let later : List Call := [.run 64 "print f();",.parse "a"]
    (c.answer (.execute 64 0)).1 =
        .ended (.compileError [.static .returnOutsideFunction ⟨.kwReturn,"return",1⟩]) ∧
      List.Forall₂ (fun a a' => a.1.Alike a'.1 ∧ a'.2 = a.2) (c.answers later)
        ((c.answer (.execute 64 0)).2.answers later) := by
  intro c later
  have hname : (match (c.answer (.execute 64 0)).1 with
      | .ended status => status.name
      | _ => "") = "CompileError" := by decide +kernel
  have herrors : (match (c.answer (.execute 64 0)).1 with
      | .ended status => status.errors
      | _ => []) = [.static .returnOutsideFunction ⟨.kwReturn,"return",1⟩] := by decide +kernel
  have hids : ((c.answer (.execute 64 0)).2.after later).session.ids.allocated ≤ 2 ^ 32 := by decide +kernel
  have hfailing : (c.answer (.execute 64 0)).1 =
      .ended (.compileError [.static .returnOutsideFunction ⟨.kwReturn,"return",1⟩]) := by
    revert hname herrors
    generalize (c.answer (.execute 64 0)).1 = response
    intro hname herrors
    cases response with
    | ended status =>
      cases status with
      | compileError errors => exact congrArg (Response.ended ∘ Status.compileError) herrors
      | _ => simp [Status.name] at hname
    | _ => simp at hname
  obtain ⟨-,-,hanswers⟩ := rejection_unobservable .unlimited (.startingAt 0) hfailing hids
  exact ⟨hfailing,hanswers⟩

end Lox

import Lox.Proofs.Run.Statement
import Lox.Proofs.Syntax.Proper
import Lox.Proofs.Syntax.Soundness

/-! The sessions that calls can lead to, and what holds of all of them: each run has started on a machine
on which every function closes over the scopes that scoping has seen around it. -/
namespace Lox

namespace Session

/-- The run that the execution of a program starts, if no name in it breaks a rule. -/
def starts (s : Session) (budget : Nat) (program : List Stmt) : List Run :=
  if (s.machine.resolve program).1.isEmpty then
    [⟨budget,program,(s.machine.resolve program).2.note (.interpreting program.length)⟩]
  else []

/-- The session in which a text is announced that is to be run. -/
def announce (s : Session) (source : String) : Session :=
  { s with machine := s.machine.note (.running source.utf8ByteSize) }

end Session

/-- The sessions that some calls lead to from a new one, with the programs that have been parsed and the
runs that have been started, newest first. A program may be executed at any time after it is parsed, and
more than once. -/
inductive Reached : List Run → List (List Stmt) → Session → Prop
  | new (output : Output) (clock : Clock) : Reached [] [] (.new output clock)
  | parsed {runs programs s source program s'} (h : Reached runs programs s)
    (hs : s.parse source = (.ok program,s')) : Reached runs (program :: programs) s'
  | rejected {runs programs s source errors s'} (h : Reached runs programs s)
    (hs : s.parse source = (.error errors,s')) : Reached runs programs s'
  | executed {runs programs s program} (budget : Nat) (h : Reached runs programs s)
    (hprogram : program ∈ programs) :
    Reached (s.starts budget program ++ runs) programs (s.execute budget program).2
  | run {runs programs s source program s'} (budget : Nat) (h : Reached runs programs s)
    (hs : (s.announce source).parse source = (.ok program,s')) :
    Reached (s'.starts budget program ++ runs) (program :: programs) (s.run budget source).2
  | run_rejected {runs programs s source errors s'} (budget : Nat) (h : Reached runs programs s)
    (hs : (s.announce source).parse source = (.error errors,s')) :
    Reached runs programs (s.run budget source).2

/-- What holds between calls. -/
structure Orderly (runs : List Run) (programs : List (List Stmt)) (s : Session) : Prop where
  good : Good runs s.machine.heap
  scope : s.machine.scope = Heap.globals
  proper : ∀ p ∈ programs, Stmt.ListProper p
  numbered : ∀ p ∈ programs, Numbered 0 s.ids.allocated ((places p).map Prod.fst)
  apart : Apart programs
  entered : Entered programs s.machine.distances
  started : ∀ r ∈ runs, r.program ∈ programs ∧ Accepted r.program
  tabled : ∀ r ∈ runs, Tabled r.program s.machine.distances
  prepared : ∀ r ∈ runs, ∃ earlier, earlier ⊆ runs ∧
    Met earlier r (.program r.budget r.program) r.machine

variable {runs : List Run} {programs : List (List Stmt)} {s s' : Session} {source : String}
  {program : List Stmt} {errors : List Error} {budget : Nat}

/-! ### Parsing -/

theorem Session.parse_eq (s : Session) (source : String) : s.parse source =
    match (Reading.ofSource source s.ids).program with
    | .ok program => (.ok program,(s.read source).2)
    | .error _ => (.error (Reading.ofSource source s.ids).report,(s.read source).2) := by
  cases hprogram : (Reading.ofSource source s.ids).program with
  | ok program => simp [Session.parse,Session.read,hprogram]
  | error errors => simp [Session.parse,Session.read,hprogram]

/-- Parsing gives out identities and leaves the rest as it is. -/
structure Session.Parses (s s' : Session) : Prop where
  ids : s.ids.allocated ≤ s'.ids.allocated
  heap : s'.machine.heap = s.machine.heap
  scope : s'.machine.scope = s.machine.scope
  distances : s'.machine.distances = s.machine.distances

theorem Session.read_parses (s : Session) (source : String) : s.Parses (s.read source).2 :=
  ⟨parse_allocated _ _,rfl,rfl,rfl⟩

theorem Session.parse_parses {outcome : Except (List Error) (List Stmt)}
    (h : s.parse source = (outcome,s')) : s.Parses s' := by
  rw [Session.parse_eq] at h
  split at h <;> exact (Prod.mk.inj h).2 ▸ s.read_parses source

/-- A text that is parsed without an error is a program of the grammar. -/
theorem Session.parse_program (h : s.parse source = (.ok program,s')) :
    (scan source).errors = [] ∧ ∃ ts line, (scan source).tokens = ts ++ [.eof line] ∧
      (∀ t ∈ ts, t.kind ≠ .eof ∧ t.Genuine) ∧
      Grammar.Program s.ids.allocated ts program s'.ids.allocated := by
  rw [Session.parse_eq] at h
  obtain ⟨ts,line,htokens,hts⟩ := scan_tokens source
  split at h
  next p hp =>
    obtain ⟨hprogram,rfl⟩ := Prod.mk.inj h
    obtain rfl := Except.ok.inj hprogram
    by_cases herrors : (Reading.ofSource source s.ids).errors.isEmpty
    · rw [Reading.program,if_pos herrors] at hp
      obtain ⟨hscan,hnone⟩ := List.append_eq_nil_iff.mp (List.isEmpty_iff.mp herrors)
      have hresult : (Lox.parse (ts ++ [Token.eof line]) s.ids).result = .ok p := by
        rw [← htokens,Parsed.result,show (Lox.parse (scan source).tokens s.ids).errors = [] from hnone]
        exact hp
      obtain ⟨j,hphrase,hids⟩ := Lox.parse_program (fun t ht => (hts t ht).1) rfl hresult
      have hallocated : (s.read source).2.ids.allocated = j := by
        show (Lox.parse (scan source).tokens s.ids).ids.allocated = j
        rw [htokens]
        exact congrArg ExprIds.allocated hids
      exact ⟨hscan,ts,line,htokens,hts,hallocated ▸ hphrase⟩
    · rw [Reading.program,if_neg herrors] at hp
      cases hp
  next => simp at h

/-- A text that is parsed gives a program with identities of its own. -/
theorem Session.parse_regular (h : s.parse source = (.ok program,s')) :
    Stmt.ListRegular program s.ids.allocated s'.ids.allocated := by
  obtain ⟨-,ts,line,-,hts,hphrase⟩ := Session.parse_program h
  exact Grammar.Declarations.regular hphrase fun t ht => (hts t ht).2

/-! ### Between calls -/

namespace Orderly

theorem new (output : Output) (clock : Clock) : Orderly [] [] (.new output clock) where
  good := by
    have hinitial : Good [] Heap.initial := by
      refine ⟨fun j => ?_,fun c name f hf => ?_,fun i name v hv => ?_⟩
      · have hscope : Heap.initial.getScope j = default := by
          obtain ⟨j⟩ := j
          cases j <;> rfl
        rw [hscope]
        exact .empty
      · simp [Heap.getClass,Heap.initial,default] at hf
      · simp [Heap.getInstance,Heap.initial,default] at hv
    have hclock : Valid [] Heap.initial (.native .clock) := trivial
    exact hinitial.define (by decide) hclock Heap.globals
  scope := rfl
  proper := by simp
  numbered := by simp
  apart := ⟨by simp,by simp⟩
  entered id n hn := by simp [Session.new,Machine.initial] at hn
  started := by simp
  tabled := by simp
  prepared := by simp

theorem parses (h : Orderly runs programs s) (hs : s.Parses s') : Orderly runs programs s' where
  good := hs.heap ▸ h.good
  scope := hs.scope.trans h.scope
  proper := h.proper
  numbered p hp := (h.numbered p hp).weaken (Nat.le_refl _) hs.ids
  apart := h.apart
  entered := hs.distances ▸ h.entered
  started := h.started
  tabled r hr := hs.distances ▸ h.tabled r hr
  prepared := h.prepared

/-- A program whose identities are all new is added. -/
theorem add (h : Orderly runs programs s) (hs : s.Parses s')
    (hprogram : Stmt.ListRegular program s.ids.allocated s'.ids.allocated)
    (hids : s'.ids.allocated ≤ 2 ^ 32) : Orderly runs (program :: programs) s' := by
  have h' := h.parses hs
  have hnumbered : Numbered s.ids.allocated s'.ids.allocated ((places program).map Prod.fst) :=
    hprogram.numbered []
  have hfresh (q : List Stmt) (hq : q ∈ programs) (id : ExprId) (hid : id ∈ (places program).map Prod.fst)
      (hid' : id ∈ (places q).map Prod.fst) : False := by
    have hle := hs.ids
    obtain ⟨k,hk,hk',rfl⟩ := hnumbered.exists_number hid
    exact (h.numbered q hq).not_mem (by omega) (by omega) (.inr hk) hid'
  refine { h' with
    proper := List.forall_mem_cons.mpr ⟨hprogram.proper,h.proper⟩
    numbered := List.forall_mem_cons.mpr ⟨hnumbered.weaken (Nat.zero_le _) (Nat.le_refl _),h'.numbered⟩
    apart := ⟨List.forall_mem_cons.mpr ⟨hnumbered.nodup hids,h.apart.once⟩,?_⟩
    entered := ?_
    started := fun r hr => ⟨List.mem_cons_of_mem _ (h.started r hr).1,(h.started r hr).2⟩ }
  · intro p hp q hq id hid hid'
    rcases List.mem_cons.mp hp with rfl | hp' <;> rcases List.mem_cons.mp hq with rfl | hq'
    · rfl
    · exact (hfresh q hq' id hid hid').elim
    · exact (hfresh p hp' id hid' hid).elim
    · exact h.apart.apart p hp' q hq' id hid hid'
  · intro id n hn
    obtain ⟨p,hp,hname⟩ := h'.entered id n hn
    exact ⟨p,List.mem_cons_of_mem _ hp,hname⟩

/-- The distances of a program are entered, whether or not it is accepted. -/
theorem resolved (h : Orderly runs programs s) (hprogram : program ∈ programs) :
    Orderly runs programs { s with machine := (s.machine.resolve program).2 } :=
  { h with
    entered := h.entered.insertAll hprogram
    tabled := fun r hr => .insertAll h.entered h.apart hprogram (h.started r hr).1 (.inr (h.tabled r hr)) }

end Orderly

/-! ### Executing -/

theorem Machine.finish_eq (outcome : Except Halt Unit) (m : Machine) :
    (m.finish outcome).2.heap = m.heap ∧ (m.finish outcome).2.scope = Heap.globals ∧
      (m.finish outcome).2.distances = m.distances := by
  simp only [Machine.finish]
  split
  · exact ⟨rfl,rfl,rfl⟩
  · split <;> exact ⟨rfl,rfl,rfl⟩

/-- The run that is started finds everything prepared. -/
theorem Orderly.met (h : Orderly runs programs s) (hprogram : program ∈ programs)
    (haccepted : Accepted program) (htabled : Tabled program s.machine.distances) (budget : Nat) :
    let r : Run := ⟨budget,program,s.machine.note (.interpreting program.length)⟩
    Met (r :: runs) r (.program budget program) r.machine := by
  refine ⟨List.mem_cons_self,.start,⟨⟨?_,?_,?_⟩,.top,?_,by simp [Context.top]⟩,_,List.mem_cons_self,?_⟩
  · exact h.good.mono (List.subset_cons_self _ _)
  · exact List.forall_mem_cons.mpr ⟨haccepted,fun r hr => (h.started r hr).2⟩
  · exact List.forall_mem_cons.mpr ⟨htabled,h.tabled⟩
  · exact h.scope ▸ .nil
  · refine ⟨h.proper program hprogram,⟨⟨⟨[],[]⟩,rfl,List.Subset.refl _⟩,List.Subset.refl _⟩,?_⟩
    simp [Context.top]

/-- The machine after a run. -/
theorem Met.interpret {m : Machine}
    (h : Met runs ⟨budget,program,m.note (.interpreting program.length)⟩ (.program budget program)
      (m.note (.interpreting program.length))) :
    Good runs (m.interpret budget program).2.heap ∧
      (m.interpret budget program).2.scope = Heap.globals ∧
      (m.interpret budget program).2.distances = m.distances := by
  have hfinishes := (safe runs _ budget).program h
  simp only [Machine.interpret]
  split
  next m' hm =>
    obtain ⟨hheap,hscope,hdistances⟩ := Machine.finish_eq (.ok ()) m'
    obtain ⟨hfinished,-⟩ := hfinishes.ok hm
    exact ⟨hheap ▸ hfinished.good,hscope,hdistances.trans hfinished.later.distances⟩
  next halt m' hm =>
    obtain ⟨hheap,hscope,hdistances⟩ := Machine.finish_eq (.error halt) m'
    have hstopped := hfinishes.error hm
    exact ⟨hheap ▸ hstopped.good,hscope,hdistances.trans hstopped.distances⟩

theorem Session.execute_machine (s : Session) (budget : Nat) (program : List Stmt) :
    (s.execute budget program).2 = { s with machine :=
      if (s.machine.resolve program).1.isEmpty then
        ((s.machine.resolve program).2.interpret budget program).2
      else (s.machine.resolve program).2 } := by
  simp only [Session.execute]
  split <;> rfl

theorem Orderly.execute (h : Orderly runs programs s) (hprogram : program ∈ programs) :
    Orderly (s.starts budget program ++ runs) programs (s.execute budget program).2 := by
  have hresolved := h.resolved hprogram
  rw [Session.execute_machine,Session.starts]
  by_cases hempty : (s.machine.resolve program).1.isEmpty
  · rw [if_pos hempty,if_pos hempty]
    have haccepted : Accepted program := accepted_iff.mp (List.isEmpty_iff.mp hempty)
    have htabled : Tabled program (s.machine.resolve program).2.distances :=
      .insertAll h.entered h.apart hprogram hprogram (.inl rfl)
    have hmet := hresolved.met hprogram haccepted htabled budget
    obtain ⟨hgood,hscope,hdistances⟩ := hmet.interpret
    let m := (s.machine.resolve program).2
    have htableds (r : Run) (hr : r ∈ ⟨budget,program,m.note (.interpreting program.length)⟩ :: runs) :
        Tabled r.program m.distances := by
      rcases List.mem_cons.mp hr with rfl | hr
      · exact htabled
      · exact hresolved.tabled r hr
    refine { hresolved with
      good := hgood
      scope := hscope
      entered := hdistances ▸ hresolved.entered
      started := List.forall_mem_cons.mpr ⟨⟨hprogram,haccepted⟩,h.started⟩
      tabled := fun r hr => hdistances ▸ htableds r hr
      prepared := List.forall_mem_cons.mpr ⟨⟨_,List.Subset.refl _,hmet⟩,fun r hr => ?_⟩ }
    obtain ⟨earlier,hearlier,hmet'⟩ := h.prepared r hr
    exact ⟨earlier,List.Subset.trans hearlier (List.subset_cons_self _ _),hmet'⟩
  · rw [if_neg hempty,if_neg hempty]
    exact hresolved

/-! ### All calls -/

theorem Session.execute_ids (s : Session) (budget : Nat) (program : List Stmt) :
    (s.execute budget program).2.ids = s.ids := by
  rw [Session.execute_machine]

theorem Session.run_ok (hs : (s.announce source).parse source = (.ok program,s')) :
    s.run budget source = s'.execute budget program := by
  simp only [Session.announce] at hs
  simp only [Session.run,hs]

theorem Session.run_error (hs : (s.announce source).parse source = (.error errors,s')) :
    s.run budget source = (.compileError errors,s') := by
  simp only [Session.announce] at hs
  simp only [Session.run,hs]

theorem Session.announce_parses (s : Session) (source : String) : s.Parses (s.announce source) :=
  ⟨Nat.le_refl _,rfl,rfl,rfl⟩

theorem Session.Parses.trans {s'' : Session} (h : s.Parses s') (h' : s'.Parses s'') : s.Parses s'' :=
  ⟨Nat.le_trans h.ids h'.ids,h'.heap.trans h.heap,h'.scope.trans h.scope,
    h'.distances.trans h.distances⟩

/-- All sessions are orderly while identities last. -/
theorem Reached.orderly (h : Reached runs programs s) (hids : s.ids.allocated ≤ 2 ^ 32) :
    Orderly runs programs s := by
  induction h with
  | new output clock => exact .new output clock
  | parsed _ hs ih =>
    have hparses := Session.parse_parses hs
    exact (ih (Nat.le_trans hparses.ids hids)).add hparses (Session.parse_regular hs) hids
  | rejected _ hs ih =>
    have hparses := Session.parse_parses hs
    exact (ih (Nat.le_trans hparses.ids hids)).parses hparses
  | executed budget _ hprogram ih =>
    rw [Session.execute_ids] at hids
    exact (ih hids).execute hprogram
  | @run _ _ s source _ _ budget _ hs ih =>
    rw [Session.run_ok hs] at hids ⊢
    rw [Session.execute_ids] at hids
    have hannounced := s.announce_parses source
    have hparses := Session.parse_parses hs
    have horderly := (ih (Nat.le_trans (hannounced.trans hparses).ids hids)).parses hannounced
    exact (horderly.add hparses (Session.parse_regular hs) hids).execute List.mem_cons_self
  | @run_rejected _ _ s source _ _ budget _ hs ih =>
    rw [Session.run_error hs] at hids ⊢
    have hparses := (s.announce_parses source).trans (Session.parse_parses hs)
    exact (ih (Nat.le_trans hparses.ids hids)).parses hparses

end Lox

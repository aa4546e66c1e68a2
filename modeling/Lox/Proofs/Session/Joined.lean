import Lox.Proofs.Session.Lowered

/-! Two texts that are run one after the other do the same as both of them joined by a newline. -/
namespace Lox

/-! ### Resolving -/

theorem resolve_append {l : Likeness} {p q q' : List Stmt} (hp : Stmt.ListProper p)
    (hq : Stmt.ListAlike l q q') (hfirst : (resolve p).errors = []) (hsecond : (resolve q).errors = []) :
    (resolve (p ++ q')).errors = [] ∧
      ∃ found, (resolve (p ++ q')).occurrences = (resolve p).occurrences ++ found ∧
        List.Forall₂ l.Occurrence (resolve q).occurrences found := by
  obtain ⟨found,hfindings,halike⟩ := resolve_append_alike hp hq
  have herrors := Finding.Alike.errors halike
  rw [show (resolve q).findings.filterMap Finding.fault? = [] from hsecond,List.forall₂_nil_left_iff] at herrors
  refine ⟨?_,found.filterMap Finding.occurrence?,?_,Finding.Alike.occurrences halike⟩
  · rw [Resolution.errors,hfindings,List.filterMap_append,herrors,List.append_nil]
    exact hfirst
  · rw [Resolution.occurrences,hfindings,List.filterMap_append]
    rfl

theorem Distances.insertAll_append (d : Distances) (a b : List (ExprId × String × Option Nat)) :
    d.insertAll (a ++ b) = (d.insertAll a).insertAll b :=
  List.foldl_append

/-! ### Executing -/

namespace Machine

variable {c : Correspondence} {m m' m₁ : Machine} {p q q' : List Stmt} {budget : Nat}

theorem executeProgram_append (budget : Nat) (p q : List Stmt) :
    executeProgram budget (p ++ q) = executeProgram budget p >>= fun _ => executeProgram budget q := by
  induction p with
  | nil => rfl
  | cons s p ih => simp only [List.cons_append,executeProgram,ih,bind_assoc]

/-- What stands behind a program goes on where that has come to. -/
theorem executeProgram_behind (h : executeProgram budget p m = .ok () m₁) (q : List Stmt) :
    executeProgram budget (p ++ q) m = executeProgram budget q m₁ := by
  rw [executeProgram_append]
  simp only [Bind.bind,EStateM.bind,h]

/-- At top level, the end of a program changes nothing. -/
theorem Alike.finish_left (h : m.Alike c m') (hscope : m.scope = Heap.globals) (hdepth : m.depth = 0)
    (outcome : Except Halt Unit) : (m.finish outcome).2.Alike c m' := by
  have hsame : { m with scope := Heap.globals, depth := 0 } = m := by rw [← hscope,← hdepth]
  simp only [finish,hsame]
  split
  · exact h
  · split
    · exact h.relog _ m'.log
    · exact h.relog _ m'.log
    · exact h

theorem interpret_ok (h : (m.interpret budget p).1 = .ok ()) :
    ∃ m₁, executeProgram budget p (m.note (.interpreting p.length)) = .ok () m₁ ∧
      (m.interpret budget p).2 = (m₁.finish (.ok ())).2 := by
  simp only [interpret] at h ⊢
  cases hrun : executeProgram budget p (m.note (.interpreting p.length)) with
  | ok _ m₁ => exact ⟨m₁,rfl,rfl⟩
  | error halt m₁ =>
    simp only [hrun,finish] at h
    split at h
    · cases h
    · split at h <;> simp_all

/-- A program that has succeeded also does so in front of another one. -/
theorem Alike.interpret_first (hm : m.Alike c m') (hself : m'.Alike c m') (hp : Stmt.ListAlike c.like p p)
    (hscope : m.scope = Heap.globals) (hdepth : m.depth = 0) (hok : (m.interpret budget p).1 = .ok ())
    (e : Event) : ∃ m₁, executeProgram budget p (m'.note e) = .ok () m₁ ∧ m'.Keeps m₁ ∧
      (m.interpret budget p).2.Alike c m₁ := by
  obtain ⟨m₂,hrun,hend⟩ := interpret_ok hok
  obtain ⟨_,m₁,hrun',hm₁,hresumes,-⟩ := (Eval.Mirrors.executeProgram hp (hm.note _ e)).ok hrun
  obtain ⟨_,_,-,-,hresumes',-⟩ := (Eval.Mirrors.executeProgram hp (hself.note e e)).ok hrun'
  have hnote : m'.Keeps (m'.note e) := ⟨rfl,rfl,rfl⟩
  refine ⟨m₁,hrun',hnote.trans hresumes'.toKeeps,?_⟩
  rw [hend]
  exact hm₁.finish_left (hresumes.scope.trans hscope) (hresumes.depth.trans hdepth) _

/-- A program does the same behind another one. -/
theorem Alike.interpret_second (hm : m.Alike c m₁) (hq : Stmt.ListAlike c.like q q')
    (hcomplete : c.Complete (m.interpret budget q).2.heap)
    (hfirst : executeProgram budget p (m'.note (.interpreting (p ++ q').length)) = .ok () m₁) :
    Outcome.Alike c.like (m.interpret budget q).1 (m'.interpret budget (p ++ q')).1 ∧
      (m.interpret budget q).2.Alike c (m'.interpret budget (p ++ q')).2 := by
  have hmirrors : Eval.Mirrors c (fun _ _ _ => True) (executeProgram budget q)
      (m.note (.interpreting q.length)) (executeProgram budget q') m₁ :=
    .executeProgram hq (hm.relog (m.note (.interpreting q.length)).log m₁.log)
  simp only [Machine.interpret,executeProgram_behind hfirst] at hcomplete ⊢
  cases hrun : executeProgram budget q (m.note (.interpreting q.length)) with
  | ok _ m₂ =>
    obtain ⟨_,m₂',hrun',hm₂,-⟩ := hmirrors.ok hrun
    rw [hrun']
    exact hm₂.finish .ok
  | error halt m₂ =>
    simp only [hrun,(finish_eq (.error halt) m₂).1] at hcomplete
    obtain ⟨halt',m₂',hrun',hhalt,hm₂,-⟩ := hmirrors.error hrun hcomplete
    rw [hrun']
    exact hm₂.finish (.error hhalt)

end Machine

/-! ### Both texts as one -/

section

variable {runs : List Run} {programs : List (List Stmt)} {s s₁ s₂ : Session} {first second source : String}
  {p q : List Stmt} {budget d : Nat}

/-- The joined text is parsed to both programs, with the same identities. -/
theorem Session.parse_joined {t u : Session} (hs₁ : s.parse first = (.ok p,s₁))
    (ht : t.ids.allocated = s₁.ids.allocated) (hs₂ : t.parse second = (.ok q,s₂))
    (hu : u.ids.allocated = s.ids.allocated)
    (htokens : (scan source).tokens =
      (scan first).tokens.dropLast ++ (scan second).tokens.map (·.down d))
    (herrors : (scan source).errors = []) :
    ∃ q', u.parse source = (.ok (p ++ q'),(u.read source).2) ∧
      Stmt.ListAlike (.lowered (fun _ => True) (scan second).tokens d) q q' := by
  obtain ⟨-,ts,line,hts,hkinds,hphrase⟩ := Session.parse_program hs₁
  obtain ⟨-,us,line',hus,hkinds',hphrase'⟩ := Session.parse_program hs₂
  rw [ht] at hphrase'
  have hsub : us ⊆ (scan second).tokens := hus ▸ List.subset_append_left _ _
  obtain ⟨q',hphrase',halike⟩ := hphrase'.lowered (fun t ht => (hkinds' t ht).1) hsub
  have hjoined : (scan source).tokens = ts ++ us.map (·.down d) ++ [(Token.eof line').down d] := by
    rw [htokens,hts,hus,List.dropLast_concat,List.map_append,List.append_assoc]
    rfl
  have hprogram : Grammar.Program u.ids.allocated (ts ++ us.map (·.down d)) (p ++ q') s₂.ids.allocated :=
    hu ▸ hphrase'.append hphrase
  exact ⟨q',(Session.parse_of_phrase herrors hjoined rfl hprogram).1,halike⟩

theorem Likeness.Occurrence.ids {live : ExprId → Prop} {ts : List Token}
    {occurrences found : List (ExprId × String × Option Nat)}
    (h : List.Forall₂ (Likeness.lowered live ts d).Occurrence occurrences found) :
    found.map Prod.fst = occurrences.map Prod.fst := by
  induction h with
  | nil => rfl
  | cons ho _ ih => rw [List.map_cons,List.map_cons,ih,ho.1.1]

/-- The first program finds the same distances when the second one has been resolved with it. -/
theorem Machine.Alike.resolve_joined {live : ExprId → Prop} {ts : List Token} {q' : List Stmt} {m m' : Machine}
    (hm : m.Alike (.same (.lowered live ts d)) m') (hsame : m'.distances = m.distances)
    (hlive : ∀ id ∈ (places q).map Prod.fst, ¬live id) {found : List (ExprId × String × Option Nat)}
    (hfound : List.Forall₂ (Likeness.lowered (fun _ => True) ts d).Occurrence (Lox.resolve q).occurrences found)
    (hoccurrences : (Lox.resolve (p ++ q')).occurrences = (Lox.resolve p).occurrences ++ found) :
    (m.resolve p).2.Alike (.same (.lowered live ts d)) (m'.resolve (p ++ q')).2 := by
  have hdistances (i i' : ExprId) (hi : (Likeness.lowered live ts d).id i i') :
      (m'.distances.insertAll (Lox.resolve (p ++ q')).occurrences).find? i' =
        (m.distances.insertAll (Lox.resolve p).occurrences).find? i := by
    obtain ⟨rfl,hi⟩ := hi
    rw [hsame,hoccurrences,Distances.insertAll_append]
    refine Distances.insertAll_apart (fun o ho heq => ?_) _
    have hmem : o.1 ∈ found.map Prod.fst := List.mem_map_of_mem ho
    rw [Likeness.Occurrence.ids hfound,heq] at hmem
    obtain ⟨⟨_,name,distance⟩,hoccurrence,rfl⟩ := List.mem_map.mp hmem
    exact hlive _ (id_mem_places (mem_occurrences.mp hoccurrence)) hi
  exact hm.reenter hdistances _ _

/-- Behind the first program the second one finds the same distances as after it. -/
theorem Machine.Alike.resolve_second {live : ExprId → Prop} {ts : List Token} {m m₁ : Machine}
    (hm : m.Alike (.same (.lowered live ts d)) m₁) {found : List (ExprId × String × Option Nat)}
    (hfound : List.Forall₂ (Likeness.lowered (fun _ => True) ts d).Occurrence (Lox.resolve q).occurrences found)
    (hdistances : m₁.distances = m.distances.insertAll found) :
    (m.resolve q).2.Alike (.same (.lowered (fun _ => True) ts d)) m₁ := by
  have hagree (i i' : ExprId) (hi : (Likeness.lowered (fun _ => True) ts d).id i i') :
      m₁.distances.find? i' = (m.distances.insertAll (Lox.resolve q).occurrences).find? i := by
    rw [hdistances]
    exact Distances.insertAll_agree Likeness.lowered_distinguishes hfound (fun j j' hj => by rw [hj.1]) hi
  have hheap : m.heap.Alike (.same (.lowered (fun _ => True) ts d)) m₁.heap :=
    Correspondence.relike hm.heap (fun _ _ ht => ht) fun i i' hi => ⟨hi.1,trivial⟩
  exact ⟨⟨hheap,hagree,hm.output.relike _,hm.clock⟩,hm.scope,hm.exists_scope,hm.depth⟩

/-- With the second program behind it the first one gets as far as alone, and everything is found there as it
is after the first program. -/
theorem Machine.Alike.first_joined {live : ExprId → Prop} {ts : List Token} {q' : List Stmt} {m m' : Machine}
    (hm : m.Alike (.same (.lowered live ts d)) m') (hself : m'.Alike (.same (.lowered live ts d)) m')
    (hsame : m'.distances = m.distances) (hp : Stmt.ListAlike (.lowered live ts d) p p)
    (hscope : m.scope = Heap.globals) (hdepth : m.depth = 0)
    (hlive : ∀ id ∈ (places q).map Prod.fst, ¬live id) {found : List (ExprId × String × Option Nat)}
    (hfound : List.Forall₂ (Likeness.lowered (fun _ => True) ts d).Occurrence (Lox.resolve q).occurrences found)
    (hoccurrences : (Lox.resolve (p ++ q')).occurrences = (Lox.resolve p).occurrences ++ found)
    (hok : ((m.resolve p).2.interpret budget p).1 = .ok ()) :
    ∃ m₁, executeProgram budget p ((m'.resolve (p ++ q')).2.note (.interpreting (p ++ q').length)) = .ok () m₁ ∧
      (((m.resolve p).2.interpret budget p).2.resolve q).2.Alike (.same (.lowered (fun _ => True) ts d)) m₁ := by
  let c : Correspondence := .same (.lowered live ts d)
  let a := (m.resolve p).2
  let b := (m'.resolve (p ++ q')).2
  have hab : a.Alike c b := hm.resolve_joined hsame hlive hfound hoccurrences
  have hb : b.Alike c b := hself.reenter (fun _ _ hi => by rw [hi.1]) _ _
  obtain ⟨m₁,hreached,hkeeps,hm₁⟩ :=
    hab.interpret_first hb hp hscope hdepth hok (.interpreting (p ++ q').length)
  obtain ⟨-,-,hkeeps'⟩ := hab.interpret hp (Correspondence.same_complete _ (a.interpret budget p).2.heap)
  have hdistances : m₁.distances = (a.interpret budget p).2.distances.insertAll found :=
    calc m₁.distances
      _ = m'.distances.insertAll (Lox.resolve (p ++ q')).occurrences := hkeeps.distances
      _ = (m.distances.insertAll (Lox.resolve p).occurrences).insertAll found := by
        rw [hsame,hoccurrences,Distances.insertAll_append]
      _ = (a.interpret budget p).2.distances.insertAll found := by rw [hkeeps'.distances]; rfl
  exact ⟨m₁,hreached,hm₁.resolve_second hfound hdistances⟩

/-- Up to the end of the first program nothing has an identity of the second one. -/
theorem Reached.without (h : Reached runs programs s) (hs : (s.announce first).parse first = (.ok p,s₁))
    {j : Nat} (hq : Stmt.ListRegular q s₁.ids.allocated j) (hle : s₁.ids.allocated ≤ j) (hj : j ≤ 2 ^ 32)
    (ts : List Token) (d : Nat) :
    s.machine.Alike (.same (.lowered (· ∉ (places q).map Prod.fst) ts d)) s.machine ∧
      Stmt.ListAlike (.lowered (· ∉ (places q).map Prod.fst) ts d) p p := by
  have hnew {k : Nat} (hk : k < s₁.ids.allocated) : .numbered k ∉ (places q).map Prod.fst :=
    (hq.numbered []).not_mem hj (by omega) (.inl hk)
  have hold : s.ids.allocated ≤ s₁.ids.allocated := (Session.parse_parses hs).ids
  have horderly := h.orderly (by omega)
  constructor
  · refine h.same_lowered fun r hr o ho => ?_
    obtain ⟨k,-,hk,hnumber⟩ :=
      (horderly.numbered r.program (horderly.started r hr).1).exists_number (List.mem_map_of_mem ho)
    exact hnumber ▸ hnew (Nat.lt_of_lt_of_le hk hold)
  · have hsame : Stmt.ListAlike (.only (fun _ => True) (fun _ => True) trivial) p p :=
      Session.parse_only hs fun _ _ => trivial
    refine hsame.relike (fun _ _ ht => .inl ht.1) fun o ho i' hi => ⟨hi.1,?_⟩
    obtain ⟨k,-,hk,hnumber⟩ :=
      ((Session.parse_regular hs).numbered []).exists_number (List.mem_map_of_mem ho)
    exact hnumber ▸ hnew hk

/-- What a text does after another one it also does behind that text, with its tokens on other lines. -/
theorem Reached.joined (h : Reached runs programs s) (hsuccess : (s.run budget first).1 = .success)
    (hrun : ∀ errors, ((s.run budget first).2.run budget second).1 ≠ .compileError errors)
    (hids : ((s.run budget first).2.run budget second).2.ids.allocated ≤ 2 ^ 32)
    (htokens : (scan source).tokens =
      (scan first).tokens.dropLast ++ (scan second).tokens.map (·.down d))
    (herrors : (scan source).errors = []) :
    ((s.run budget first).2.run budget second).1.Alike (.lowered (fun _ => True) (scan second).tokens d)
        (s.run budget source).1 ∧
      ((s.run budget first).2.run budget second).2.machine.Alike
        (.same (.lowered (fun _ => True) (scan second).tokens d)) (s.run budget source).2.machine := by
  obtain ⟨p,s₁,hs₁,hfirst,hrun₁⟩ := Session.exists_program (Status.ne_compileError_of_success hsuccess)
  rw [hrun₁] at hsuccess hrun hids ⊢
  obtain ⟨q,s₂,hs₂,haccepted,hrun₂⟩ := Session.exists_program hrun
  rw [hrun₂] at hids ⊢
  rw [Session.execute_ids] at hids
  have ht : ((s₁.execute budget p).2.announce second).ids.allocated = s₁.ids.allocated :=
    congrArg ExprIds.allocated (Session.execute_ids s₁ budget p)
  have hu : (s.announce source).ids.allocated = (s.announce first).ids.allocated := rfl
  obtain ⟨q',hparse,hq⟩ := Session.parse_joined hs₁ ht hs₂ hu htokens herrors
  have hregular := Session.parse_regular hs₂
  rw [ht] at hregular
  obtain ⟨hjoined,found,hoccurrences,hfound⟩ :=
    resolve_append (Session.parse_regular hs₁).proper hq hfirst haccepted
  have hle : s₁.ids.allocated ≤ s₂.ids.allocated := ht ▸ (Session.parse_parses hs₂).ids
  have hold : s.ids.allocated ≤ s₁.ids.allocated := (Session.parse_parses hs₁).ids
  have horderly := h.orderly (Nat.le_trans hold (Nat.le_trans hle hids))
  obtain ⟨hself,hp⟩ := h.without hs₁ hregular hle hids (scan second).tokens d
  obtain rfl := Session.parse_read hs₁
  obtain rfl := Session.parse_read hs₂
  let s₁ := ((s.announce first).read first).2
  let m := s₁.machine
  let m' := ((s.announce source).read source).2.machine
  have hok : ((m.resolve p).2.interpret budget p).1 = .ok () := by
    rw [Session.execute_accepted hfirst] at hsuccess
    exact Status.ofOutcome_success hsuccess
  have hm : m.Alike _ m' := hself.relog m.log m'.log
  have hm' : m'.Alike _ m' := hself.relog m'.log m'.log
  obtain ⟨m₁,hreached,hsecond⟩ := hm.first_joined hm' rfl hp h.top.1 h.top.2
    (fun id hid hnot => hnot hid) hfound hoccurrences hok
  let t := (((s₁.execute budget p).2.announce second).read second).2
  have hs : (t.machine.resolve q).2.Alike (.same (.lowered (fun _ => True) (scan second).tokens d)) m₁ := by
    have hexecuted : (s₁.execute budget p).2.machine = ((m.resolve p).2.interpret budget p).2 := by
      rw [Session.execute_accepted hfirst]
    rw [← hexecuted] at hsecond
    exact hsecond.relog (t.machine.resolve q).2.log m₁.log
  obtain ⟨houtcome,hmachine⟩ := hs.interpret_second hq (Correspondence.same_complete _ _) hreached
  rw [Session.run_ok hparse,Session.execute_accepted haccepted,Session.execute_accepted hjoined]
  exact ⟨houtcome.status,hmachine⟩

end

/-! ### What a caller sees -/

namespace Correspondence

variable {l : Likeness}

@[simp] theorem same_function : (same l).function = id := rfl

@[simp] theorem same_class : (same l).class = id := rfl

@[simp] theorem same_instance : (same l).instance = id := rfl

@[simp] theorem same_value : (same l).value = id := by
  funext v
  cases v <;> rfl

end Correspondence

namespace Status

variable {status : Status} {e : Error}

end Status

theorem Output.Alike.same {l : Likeness} {o o' : Output} (h : o.Alike (.same l) o') : o' = o := by
  obtain ⟨w,hw,hw'⟩ := h.written
  exact Output.mk.injEq .. ▸ ⟨h.limit,h.flushFails,hw'.trans hw.symm⟩

section

variable {runs : List Run} {programs : List (List Stmt)} {s : Session} {first second : String}

end

end Lox

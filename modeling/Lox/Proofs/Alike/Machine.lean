import Lox.Evaluation
import Lox.Proofs.Alike.Heap

/-! Machines that correspond, and computations that take corresponding machines to corresponding ones. -/
namespace Lox

/-- The same has been written since some point. If only so much may be written, as much has been written
before. -/
structure Output.Alike (c : Correspondence) (o o' : Output) : Prop where
  limit : o'.limit = o.limit
  flushFails : o'.flushFails = o.flushFails
  written : ∃ w, o.written = c.before ++ w ∧ o'.written = c.before' ++ w
  room : o.limit = none ∨ c.before'.size = c.before.size

/-- Two machines whose objects and outputs correspond, wherever they are in their programs. The log is not
compared. -/
structure Machine.Comparable (c : Correspondence) (m m' : Machine) : Prop where
  heap : m.heap.Alike c m'.heap
  distances : ∀ i i', c.like.id i i' → m'.distances.find? i' = m.distances.find? i
  output : m.output.Alike c m'.output
  clock : c.timed → m'.clock = m.clock

structure Machine.Alike (c : Correspondence) (m m' : Machine) : Prop extends Machine.Comparable c m m' where
  scope : m'.scope = c.scope m.scope
  exists_scope : m.scope.index < m.heap.scopes.size
  depth : m'.depth = m.depth

/-- A value and the one that stands for it. -/
structure Correspondence.Stands (c : Correspondence) (h : Heap) (v v' : Value) : Prop where
  value : v' = c.value v
  knows : c.Knows h v

inductive Flow.Alike (c : Correspondence) (h : Heap) : Flow → Flow → Prop
  | normal : Alike c h .normal .normal
  | returned {v v'} : c.Stands h v v' → Alike c h (.returned v) (.returned v')

inductive Halt.Alike (l : Likeness) : Halt → Halt → Prop
  | error {e e'} : e.Alike l e' → Alike l (.error e) (.error e')
  | exhausted : Alike l .exhausted .exhausted

/-- What no computation changes. -/
structure Machine.Keeps (m m₁ : Machine) : Prop where
  distances : m₁.distances = m.distances
  limit : m₁.output.limit = m.output.limit
  flushFails : m₁.output.flushFails = m.output.flushFails

/-- A computation has come back to where it was started. -/
structure Machine.Resumes (m m₁ : Machine) : Prop extends m.Keeps m₁ where
  scope : m₁.scope = m.scope
  depth : m₁.depth = m.depth
  heap : m.heap.Grows m₁.heap

/-- Two computations do the same on two machines. When the first one stops with an error, this is claimed only
if nothing is left over any more that the second one might have found instead. -/
structure Eval.Mirrors {α β : Type} (c : Correspondence) (R : Heap → α → β → Prop) (x : Eval α) (m : Machine)
    (y : Eval β) (m' : Machine) : Prop where
  ok : ∀ {a m₁}, x m = .ok a m₁ →
    ∃ b m₁', y m' = .ok b m₁' ∧ m₁.Alike c m₁' ∧ m.Resumes m₁ ∧ R m₁.heap a b
  error : ∀ {halt m₁}, x m = .error halt m₁ → c.Complete m₁.heap →
    ∃ halt' m₁', y m' = .error halt' m₁' ∧ halt.Alike c.like halt' ∧ m₁.Comparable c m₁' ∧ m.Keeps m₁

variable {c : Correspondence} {m m' m₁ m₁' : Machine}

theorem Output.write_keeps (o : Output) (text : String) :
    (o.write text).2.limit = o.limit ∧ (o.write text).2.flushFails = o.flushFails := by
  simp only [write]
  split
  · exact ⟨rfl,rfl⟩
  · split <;> exact ⟨rfl,rfl⟩

theorem Output.Alike.write {o o' : Output} (h : o.Alike c o') (text : String) :
    (o'.write text).1 = (o.write text).1 ∧ (o.write text).2.Alike c (o'.write text).2 := by
  obtain ⟨limit,fails,written⟩ := o
  obtain ⟨limit',fails',written'⟩ := o'
  obtain ⟨hlimit,hfails,⟨w,hw,hw'⟩,hroom⟩ := h
  obtain rfl : limit' = limit := hlimit
  obtain rfl : written = c.before ++ w := hw
  obtain rfl : written' = c.before' ++ w := hw'
  have hadd (bytes : ByteArray) :
      Alike c ⟨limit',fails,c.before ++ w ++ bytes⟩ ⟨limit',fails',c.before' ++ w ++ bytes⟩ :=
    ⟨rfl,hfails,⟨w ++ bytes,ByteArray.append_assoc,ByteArray.append_assoc⟩,hroom⟩
  simp only [Output.write]
  cases limit' with
  | none => exact ⟨rfl,hadd _⟩
  | some limit =>
    have hsize : (c.before' ++ w).size = (c.before ++ w).size := by
      have hbefore := hroom.resolve_left (by simp)
      rw [ByteArray.size_append,ByteArray.size_append,hbefore]
    simp only [hsize]
    split
    · exact ⟨rfl,hadd _⟩
    · exact ⟨rfl,hadd _⟩

namespace Machine

theorem Keeps.refl (m : Machine) : m.Keeps m := ⟨rfl,rfl,rfl⟩

theorem Keeps.trans {m₂ : Machine} (h : m.Keeps m₁) (h' : m₁.Keeps m₂) : m.Keeps m₂ :=
  ⟨h'.distances.trans h.distances,h'.limit.trans h.limit,h'.flushFails.trans h.flushFails⟩

theorem Resumes.refl (m : Machine) : m.Resumes m := ⟨.refl m,rfl,rfl,.refl _⟩

theorem Resumes.trans {m₂ : Machine} (h : m.Resumes m₁) (h' : m₁.Resumes m₂) : m.Resumes m₂ :=
  ⟨h.toKeeps.trans h'.toKeeps,h'.scope.trans h.scope,h'.depth.trans h.depth,h.heap.trans h'.heap⟩

theorem Resumes.note (m : Machine) (e : Event) : m.Resumes (m.note e) :=
  ⟨⟨rfl,rfl,rfl⟩,rfl,rfl,.refl _⟩

theorem Resumes.reheap {h : Heap} (hgrows : m.heap.Grows h) : m.Resumes { m with heap := h } :=
  ⟨⟨rfl,rfl,rfl⟩,rfl,rfl,hgrows⟩

namespace Comparable

theorem note (h : m.Comparable c m') (e e' : Event) : (m.note e).Comparable c (m'.note e') :=
  ⟨h.heap,h.distances,h.output,h.clock⟩

/-- Where the machines are in their programs makes no difference. -/
theorem move (h : m.Comparable c m') (i i' : ScopeId) (n n' : Nat) :
    Machine.Comparable c { m with scope := i, depth := n } { m' with scope := i', depth := n' } :=
  ⟨h.heap,h.distances,h.output,h.clock⟩

end Comparable

namespace Alike

theorem note (h : m.Alike c m') (e e' : Event) : (m.note e).Alike c (m'.note e') :=
  ⟨h.toComparable.note e e',h.scope,h.exists_scope,h.depth⟩

theorem reheap {k k' : Heap} (h : m.Alike c m') (hk : k.Alike c k') (hgrows : m.heap.Grows k) :
    Machine.Alike c { m with heap := k } { m' with heap := k' } :=
  ⟨⟨hk,h.distances,h.output,h.clock⟩,h.scope,Nat.lt_of_lt_of_le h.exists_scope hgrows.scopes,h.depth⟩

theorem rescope {i : ScopeId} (h : m.Alike c m') (hi : i.index < m.heap.scopes.size) :
    Machine.Alike c { m with scope := i } { m' with scope := c.scope i } :=
  ⟨h.toComparable.move i (c.scope i) m.depth m'.depth,rfl,hi,h.depth⟩

theorem redepth (h : m.Alike c m') (n : Nat) :
    Machine.Alike c { m with depth := n } { m' with depth := n } :=
  ⟨h.toComparable.move m.scope m'.scope n n,h.scope,h.exists_scope,rfl⟩

end Alike

end Machine

namespace Eval.Mirrors

variable {α β γ δ : Type} {R : Heap → α → β → Prop} {S : Heap → γ → δ → Prop} {x : Eval α} {y : Eval β}
  {f : α → Eval γ} {g : β → Eval δ}

/-! ### Computations in general -/

theorem of_ok {a : α} {b : β} (hx : x m = .ok a m₁) (hy : y m' = .ok b m₁') (hm : m₁.Alike c m₁')
    (hresumes : m.Resumes m₁) (hab : R m₁.heap a b) : Mirrors c R x m y m' where
  ok ha := by
    obtain ⟨rfl,rfl⟩ := EStateM.Result.ok.inj (hx.symm.trans ha)
    exact ⟨b,m₁',hy,hm,hresumes,hab⟩
  error he := by simp [hx] at he

theorem of_error {halt halt' : Halt} (hx : x m = .error halt m₁)
    (hy : c.Complete m₁.heap → y m' = .error halt' m₁') (hhalt : halt.Alike c.like halt')
    (hm : m₁.Comparable c m₁') (hkeeps : m.Keeps m₁) : Mirrors c R x m y m' where
  ok ha := by simp [hx] at ha
  error he hcomplete := by
    obtain ⟨rfl,rfl⟩ := EStateM.Result.error.inj (hx.symm.trans he)
    exact ⟨halt',m₁',hy hcomplete,hhalt,hm,hkeeps⟩

theorem pure {a : α} {b : β} (hm : m.Alike c m') (hab : R m.heap a b) :
    Mirrors c R (pure a) m (pure b) m' :=
  of_ok rfl rfl hm (.refl m) hab

theorem bind (h : Mirrors c R x m y m')
    (hf : ∀ a b m₁ m₁', m₁.Alike c m₁' → m.Resumes m₁ → R m₁.heap a b → Mirrors c S (f a) m₁ (g b) m₁') :
    Mirrors c S (x >>= f) m (y >>= g) m' where
  ok hok := by
    simp only [Bind.bind,EStateM.bind] at hok ⊢
    split at hok
    next a m₁ ha =>
      obtain ⟨b,m₁',hb,hm₁,hresumes,hab⟩ := h.ok ha
      obtain ⟨d,m₂',hd,hm₂,hresumes',hcd⟩ := (hf a b m₁ m₁' hm₁ hresumes hab).ok hok
      exact ⟨d,m₂',by simp only [hb,hd],hm₂,hresumes.trans hresumes',hcd⟩
    next => cases hok
  error herror hcomplete := by
    simp only [Bind.bind,EStateM.bind] at herror ⊢
    split at herror
    next a m₁ ha =>
      obtain ⟨b,m₁',hb,hm₁,hresumes,hab⟩ := h.ok ha
      obtain ⟨halt',m₂',hhalt',hhalt,hm₂,hkeeps⟩ := (hf a b m₁ m₁' hm₁ hresumes hab).error herror hcomplete
      exact ⟨halt',m₂',by simp only [hb,hhalt'],hhalt,hm₂,hresumes.toKeeps.trans hkeeps⟩
    next he =>
      cases herror
      obtain ⟨halt',m₁',hhalt',hhalt⟩ := h.error he hcomplete
      exact ⟨halt',m₁',by rw [hhalt'],hhalt⟩

/-- A computation that has gone on to another machine. -/
theorem after {z : Eval α} {w : Eval β} (h : Mirrors c R z m₁ w m₁') (hx : x m = z m₁) (hy : y m' = w m₁')
    (hresumes : m.Resumes m₁) : Mirrors c R x m y m' where
  ok ha := by
    obtain ⟨b,m₂',hb,hm₂,hresumes',hab⟩ := h.ok (hx.symm.trans ha)
    exact ⟨b,m₂',hy.trans hb,hm₂,hresumes.trans hresumes',hab⟩
  error he hcomplete := by
    obtain ⟨halt',m₂',hhalt',hhalt,hm₂,hkeeps⟩ := h.error (hx.symm.trans he) hcomplete
    exact ⟨halt',m₂',hy.trans hhalt',hhalt,hm₂,hresumes.toKeeps.trans hkeeps⟩

/-! ### Steps -/

theorem exhausted (hm : m.Alike c m') : Mirrors c R exhausted m exhausted m' :=
  of_error rfl (fun _ => rfl) .exhausted hm.toComparable (.refl m)

theorem raise (hm : m.Alike c m') {e e' : Error} (he : e.Alike c.like e') :
    Mirrors c R (raise e) m (raise e') m' :=
  of_error rfl (fun _ => rfl) (.error he) (hm.toComparable.note _ _) ⟨rfl,rfl,rfl⟩

theorem internal (hm : m.Alike c m') (fault : InternalFault) :
    Mirrors c R (Eval.raise (.internal fault)) m (Eval.raise (.internal fault)) m' :=
  raise hm .internal

theorem runtime (hm : m.Alike c m') (fault : RuntimeFault) {t t' : Token} (ht : c.like.token t t') :
    Mirrors c R (runtime fault t) m (runtime fault t') m' :=
  raise hm (.runtime ht)

theorem get {f : Machine → Eval γ} {g : Machine → Eval δ} (h : Mirrors c S (f m) m (g m') m') :
    Mirrors c S (MonadState.get >>= f) m (MonadState.get >>= g) m' :=
  h.after rfl rfl (.refl m)

theorem heap {f : Heap → Eval γ} {g : Heap → Eval δ} (h : Mirrors c S (f m.heap) m (g m'.heap) m') :
    Mirrors c S (Eval.heap >>= f) m (Eval.heap >>= g) m' :=
  h.after rfl rfl (.refl m)

theorem note {e e' : Event} {f : Unit → Eval γ} {g : Unit → Eval δ} (hm : m.Alike c m')
    (h : ∀ m₁ m₁', m₁.Alike c m₁' → m.Resumes m₁ → m₁.heap = m.heap → m₁'.heap = m'.heap →
      Mirrors c S (f ()) m₁ (g ()) m₁') :
    Mirrors c S (Eval.note e >>= f) m (Eval.note e' >>= g) m' :=
  (h _ _ (hm.note e e') (.note m e) rfl rfl).after rfl rfl (.note m e)

/-- The heap is changed in the same way. -/
theorem change {change change' : Heap → Heap} {f : Unit → Eval γ} {g : Unit → Eval δ} (hm : m.Alike c m')
    (hheap : (change m.heap).Alike c (change' m'.heap)) (hgrows : m.heap.Grows (change m.heap))
    (h : ∀ m₁ m₁', m₁.Alike c m₁' → m.Resumes m₁ → Mirrors c S (f ()) m₁ (g ()) m₁') :
    Mirrors c S (changeHeap change >>= f) m (changeHeap change' >>= g) m' :=
  (h _ _ (hm.reheap hheap hgrows) (.reheap hgrows)).after rfl rfl (.reheap hgrows)

theorem allocate {add : Heap → α × Heap} {add' : Heap → β × Heap} (hm : m.Alike c m')
    (hheap : (add m.heap).2.Alike c (add' m'.heap).2) (hgrows : m.heap.Grows (add m.heap).2)
    (h : ∀ m₁ m₁', m₁.Alike c m₁' → m.Resumes m₁ → m₁.heap = (add m.heap).2 →
      Mirrors c S (f (add m.heap).1) m₁ (g (add' m'.heap).1) m₁') :
    Mirrors c S (Eval.allocate add >>= f) m (Eval.allocate add' >>= g) m' :=
  (h _ _ (hm.reheap hheap hgrows) (.reheap hgrows) rfl).after rfl rfl (.reheap hgrows)

theorem define {name name' : String} {v : Value} {f : Unit → Eval γ} {g : Unit → Eval δ} (hm : m.Alike c m')
    (hname : name' = name) (hv : c.Knows m.heap v)
    (h : ∀ m₁ m₁', m₁.Alike c m₁' → m.Resumes m₁ → m₁.heap = m.heap.define m.scope name v →
      m₁'.heap = m'.heap.define m'.scope name (c.value v) → Mirrors c S (f ()) m₁ (g ()) m₁') :
    Mirrors c S (Eval.define name v >>= f) m (Eval.define name' (c.value v) >>= g) m' := by
  obtain rfl := hname
  have hheap : (m.heap.define m.scope name' v).Alike c (m'.heap.define m'.scope name' (c.value v)) := by
    rw [hm.scope]
    exact hm.heap.define m.scope name' hv
  have hgrows := Heap.Grows.define m.heap m.scope name' v
  exact (h _ _ (hm.reheap hheap hgrows) (.reheap hgrows) rfl rfl).after rfl rfl (.reheap hgrows)

theorem inScope {i : ScopeId} (hm : m.Alike c m') (hi : i.index < m.heap.scopes.size)
    (h : ∀ m₁ m₁', m₁.Alike c m₁' → m.heap.Grows m₁.heap → Mirrors c R x m₁ y m₁') :
    Mirrors c R (inScope i x) m (inScope (c.scope i) y) m' := by
  have hbody := h _ _ (hm.rescope hi) (.refl _)
  refine ⟨fun {a m₁} hok => ?_,fun {halt m₁} herror hcomplete => ?_⟩
  · simp only [Eval.inScope] at hok ⊢
    split at hok <;> cases hok
    next after ha =>
      obtain ⟨b,after',hb,hafter,hresumes,hab⟩ := hbody.ok ha
      have hback := hafter.rescope (Nat.lt_of_lt_of_le hm.exists_scope hresumes.heap.scopes)
      rw [hb,hm.scope]
      have hkeeps : m.Keeps { after with scope := m.scope } :=
        ⟨hresumes.distances,hresumes.limit,hresumes.flushFails⟩
      exact ⟨b,_,rfl,hback,⟨hkeeps,rfl,hresumes.depth,hresumes.heap⟩,hab⟩
  · simp only [Eval.inScope] at herror ⊢
    split at herror <;> cases herror
    next after he =>
      obtain ⟨halt',after',hhalt',hhalt,hafter,hkeeps⟩ := hbody.error he hcomplete
      rw [hhalt']
      exact ⟨halt',_,rfl,hhalt,hafter.move m.scope m'.scope after.depth after'.depth,
        ⟨hkeeps.distances,hkeeps.limit,hkeeps.flushFails⟩⟩

theorem inNew {b b' : Bindings Value} {enclosing : Option ScopeId} (hm : m.Alike c m')
    (hb : b.Alike c m.heap b')
    (h : ∀ m₁ m₁', m₁.Alike c m₁' → m.heap.Grows m₁.heap → Mirrors c R x m₁ y m₁') :
    Mirrors c R (inNew ⟨b,enclosing⟩ x) m (inNew ⟨b',enclosing.map c.scope⟩ y) m' := by
  have hgrows := Heap.Grows.addScope m.heap ⟨b,enclosing⟩
  refine allocate hm (hm.heap.addScope hb enclosing) hgrows fun m₁ m₁' hm₁ hresumes hheap => ?_
  have hnew : (m'.heap.addScope ⟨b',enclosing.map c.scope⟩).1 =
      c.scope (m.heap.addScope ⟨b,enclosing⟩).1 := hm.heap.new_scope
  have hexists : (m.heap.addScope ⟨b,enclosing⟩).1.index < m₁.heap.scopes.size := by
    rw [hheap]
    simp [Heap.addScope]
  rw [hnew]
  exact inScope hm₁ hexists fun m₂ m₂' hm₂ hgrows₂ => h m₂ m₂' hm₂ (hresumes.heap.trans hgrows₂)

theorem nested (hm : m.Alike c m')
    (h : ∀ m₁ m₁', m₁.Alike c m₁' → m₁.heap = m.heap → Mirrors c R x m₁ y m₁') :
    Mirrors c R (nested x) m (nested y) m' := by
  have hbody := h _ _ (hm.redepth (m.depth + 1)) rfl
  refine ⟨fun {a m₁} hok => ?_,fun {halt m₁} herror hcomplete => ?_⟩
  · simp only [Eval.nested,hm.depth] at hok ⊢
    split at hok <;> cases hok
    next after ha =>
      obtain ⟨b,after',hb,hafter,hresumes,hab⟩ := hbody.ok ha
      rw [hb]
      refine ⟨b,_,rfl,hafter.depth ▸ hafter.redepth _,⟨⟨hresumes.distances,hresumes.limit,hresumes.flushFails⟩,
        hresumes.scope,?_,hresumes.heap⟩,hab⟩
      exact congrArg (· - 1) hresumes.depth
  · simp only [Eval.nested,hm.depth] at herror ⊢
    split at herror <;> cases herror
    next after he =>
      obtain ⟨halt',after',hhalt',hhalt,hafter,hkeeps⟩ := hbody.error he hcomplete
      rw [hhalt']
      exact ⟨halt',_,rfl,hhalt,hafter.move after.scope after'.scope (after.depth - 1) (after'.depth - 1),
        ⟨hkeeps.distances,hkeeps.limit,hkeeps.flushFails⟩⟩

theorem print (hm : m.Alike c m') (text : String) :
    Mirrors c (fun _ _ _ => True) (print text) m (print text) m' := by
  obtain ⟨houtcome,houtput⟩ := hm.output.write (text ++ "\n")
  obtain ⟨hlimit,hflush⟩ := m.output.write_keeps (text ++ "\n")
  have hafter : Machine.Alike c { m with output := (m.output.write (text ++ "\n")).2 }
      { m' with output := (m'.output.write (text ++ "\n")).2 } :=
    ⟨⟨hm.heap,hm.distances,houtput,hm.clock⟩,hm.scope,hm.exists_scope,hm.depth⟩
  have hkeeps : m.Keeps { m with output := (m.output.write (text ++ "\n")).2 } := ⟨rfl,hlimit,hflush⟩
  cases hwrite : (m.output.write (text ++ "\n")).1 with
  | ok =>
    have hx : Eval.print text m = .ok () { m with output := (m.output.write (text ++ "\n")).2 } := by
      simp only [Eval.print,hwrite]
    have hy : Eval.print text m' = .ok () { m' with output := (m'.output.write (text ++ "\n")).2 } := by
      simp only [Eval.print,houtcome,hwrite]
    exact of_ok hx hy hafter ⟨hkeeps,rfl,rfl,.refl _⟩ trivial
  | error fault =>
    have hx : Eval.print text m = .error (.error (.output fault))
        { m with output := (m.output.write (text ++ "\n")).2 } := by
      simp only [Eval.print,hwrite]
    have hy : Eval.print text m' = .error (.error (.output fault))
        { m' with output := (m'.output.write (text ++ "\n")).2 } := by
      simp only [Eval.print,houtcome,hwrite]
    exact of_error hx (fun _ => hy) (.error .output) hafter.toComparable hkeeps

/-- Readings of the clock are taken only if they are compared. -/
theorem readClock (hm : m.Alike c m') (htimed : c.timed) :
    Mirrors c (fun _ n n' => n' = n) readClock m readClock m' := by
  refine of_ok rfl rfl ⟨⟨hm.heap,hm.distances,hm.output,fun _ => ?_⟩,hm.scope,hm.exists_scope,hm.depth⟩
    ⟨⟨rfl,rfl,rfl⟩,rfl,rfl,.refl _⟩ ?_
  · rw [hm.clock htimed]
  · rw [hm.clock htimed]

end Eval.Mirrors

end Lox

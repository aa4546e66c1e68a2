import Lox.Proofs.Syntax.Kept
import Lox.Proofs.Syntax.Relaxed

/-! What may still come at a point of a parse, and what it means that a rule stops at the first token that cannot. -/
namespace Lox
namespace Relaxed

/-- The token lists that may come at some point of a program, up to its end. There is always one. -/
@[ext] structure Future where
  words : List Token → Prop
  possible : ∃ z, words z

instance : Membership (List Token) Future := ⟨fun F z => F.words z⟩

/-- Nothing but the end mark. -/
def Future.done : Future := ⟨fun z => ∃ mark : Token, mark.kind = .eof ∧ z = [mark],[.eof 1],.eof 1,rfl,rfl⟩

/-- First what the pattern stands for, then one of the given futures. -/
def Pattern.before (p : Pattern) (K : Future) : Future where
  words z := ∃ us vs, z = us ++ vs ∧ Derives p us ∧ vs ∈ K
  possible := by
    obtain ⟨us,hus⟩ := productive p
    obtain ⟨vs,hvs⟩ := K.possible
    exact ⟨us ++ vs,us,vs,rfl,hus,hvs⟩

/-- No future begins with a token of one of these kinds. -/
def Future.Avoids (K : Future) (kinds : List Kind) : Prop := ∀ t z, t :: z ∈ K → t.kind ∉ kinds

/-- Each future begins with a token of one of these kinds. -/
def Future.BeginsWith (K : Future) (kinds : List Kind) : Prop := ∀ t z, t :: z ∈ K → t.kind ∈ kinds

namespace Pattern

variable {p q : Pattern} {K K' : Future} {kind : Kind} {others : List Kind} {t : Token} {z : List Token}

theorem mem_before {us vs : List Token} (hus : Derives p us) (hvs : vs ∈ K) : us ++ vs ∈ p.before K :=
  ⟨us,vs,rfl,hus,hvs⟩

theorem before_mono (h : ∀ z ∈ K, z ∈ K') (hz : z ∈ p.before K) : z ∈ p.before K' := by
  obtain ⟨us,vs,rfl,hus,hvs⟩ := hz
  exact mem_before hus (h vs hvs)

@[simp] theorem both_before : (p ++ q).before K = p.before (q.before K) := by
  ext z
  constructor
  · rintro ⟨_,ws,rfl,h,hws⟩
    cases h with
    | both hus hvs =>
      rw [List.append_assoc]
      exact mem_before hus (mem_before hvs hws)
  · rintro ⟨us,_,rfl,hus,vs,ws,rfl,hvs,hws⟩
    rw [← List.append_assoc]
    exact mem_before (.both hus hvs) hws

theorem rule_before (name : Phrase) : (rule name).before K = (rules name).before K := by
  ext z
  constructor
  · rintro ⟨us,vs,rfl,h,hvs⟩
    cases h with
    | rule h => exact mem_before h hvs
  · rintro ⟨us,vs,rfl,h,hvs⟩
    exact mem_before (.rule h) hvs

@[simp] theorem mem_either : z ∈ (p ||| q).before K ↔ z ∈ p.before K ∨ z ∈ q.before K := by
  constructor
  · rintro ⟨us,vs,rfl,h,hvs⟩
    cases h with
    | first h => exact .inl (mem_before h hvs)
    | second h => exact .inr (mem_before h hvs)
  · rintro (⟨us,vs,rfl,h,hvs⟩ | ⟨us,vs,rfl,h,hvs⟩)
    · exact mem_before (.first h) hvs
    · exact mem_before (.second h) hvs

@[simp] theorem mem_optional : z ∈ (optional p).before K ↔ z ∈ p.before K ∨ z ∈ K := by
  constructor
  · rintro ⟨us,vs,rfl,h,hvs⟩
    cases h with
    | absent => exact .inr hvs
    | present h => exact .inl (mem_before h hvs)
  · rintro (⟨us,vs,rfl,h,hvs⟩ | h)
    · exact mem_before (.present h) hvs
    · exact mem_before .absent h

theorem mem_many : z ∈ (many p).before K ↔ z ∈ p.before ((many p).before K) ∨ z ∈ K := by
  constructor
  · rintro ⟨us,vs,rfl,h,hvs⟩
    cases h with
    | none => exact .inr hvs
    | more h hmore =>
      rw [List.append_assoc]
      exact .inl (mem_before h (mem_before hmore hvs))
  · rintro (⟨us,_,rfl,h,vs,ws,rfl,hmore,hws⟩ | h)
    · rw [← List.append_assoc]
      exact mem_before (.more h hmore) hws
    · exact mem_before .none h

theorem cons_mem_rule (name : Phrase) : t :: z ∈ (rule name).before K ↔ t :: z ∈ (rules name).before K := by
  rw [rule_before]

@[simp] theorem cons_mem_oneOf : t :: z ∈ (oneOf kind others).before K ↔ t.kind ∈ kind :: others ∧ z ∈ K := by
  constructor
  · rintro ⟨_,vs,heq,h,hvs⟩
    cases h with
    | oneOf ht =>
      obtain ⟨rfl,rfl⟩ := List.cons.inj heq
      exact ⟨ht,hvs⟩
  · rintro ⟨ht,hz⟩
    exact mem_before (.oneOf ht) hz

@[simp] theorem cons_mem_token : t :: z ∈ (token kind).before K ↔ t.kind = kind ∧ z ∈ K := by
  simp [token]

@[simp] theorem cons_mem_number : t :: z ∈ number.before K ↔ (∃ x, t.kind = .number x) ∧ z ∈ K := by
  constructor
  · rintro ⟨_,vs,heq,h,hvs⟩
    cases h with
    | number ht =>
      obtain ⟨rfl,rfl⟩ := List.cons.inj heq
      exact ⟨⟨_,ht⟩,hvs⟩
  · rintro ⟨⟨x,ht⟩,hz⟩
    exact mem_before (.number ht) hz

@[simp] theorem cons_mem_string : t :: z ∈ string.before K ↔ (∃ text, t.kind = .string text) ∧ z ∈ K := by
  constructor
  · rintro ⟨_,vs,heq,h,hvs⟩
    cases h with
    | string ht =>
      obtain ⟨rfl,rfl⟩ := List.cons.inj heq
      exact ⟨⟨_,ht⟩,hvs⟩
  · rintro ⟨⟨x,ht⟩,hz⟩
    exact mem_before (.string ht) hz

end Pattern

namespace Future.Avoids

variable {p q : Pattern} {K : Future} {kinds : List Kind}

theorem oneOf {kind : Kind} {others : List Kind} (h : ∀ other ∈ kind :: others, other ∉ kinds) :
    ((Pattern.oneOf kind others).before K).Avoids kinds :=
  fun t _ hz => h t.kind (Pattern.cons_mem_oneOf.mp hz).1

theorem token {kind : Kind} (h : kind ∉ kinds) : ((Pattern.token kind).before K).Avoids kinds :=
  oneOf (by simpa using h)

theorem optional (hp : (p.before K).Avoids kinds) (hK : K.Avoids kinds) :
    ((Pattern.optional p).before K).Avoids kinds :=
  fun t z hz => (Pattern.mem_optional.mp hz).elim (hp t z) (hK t z)

theorem many (hp : (p.before ((Pattern.many p).before K)).Avoids kinds) (hK : K.Avoids kinds) :
    ((Pattern.many p).before K).Avoids kinds :=
  fun t z hz => (Pattern.mem_many.mp hz).elim (hp t z) (hK t z)

theorem mono {others : List Kind} (h : K.Avoids kinds) (hsubset : others ⊆ kinds) : K.Avoids others :=
  fun t z hz hmem => h t z hz (hsubset hmem)

end Future.Avoids
end Relaxed

/-- The error is one after which the current declaration is given up. -/
def Error.isFatal : Error → Bool
  | syntactic fault _ => fault.isFatal
  | _ => false

namespace Parser

open Relaxed

variable {α β : Type} {F G K N : Future} {k k' : Nat} {p : Parser α} {f : α → Parser β} {kinds : List Kind}
  {r r' : Reader} {t : Token} {ts us : List Token}

/-- No fatal error has been found. -/
def Clean (errors : List Error) : Prop := ∀ e ∈ errors, e.isFatal = false

/-- Of the errors, which are kept newest first, the first one that is fatal is at the token. -/
def FirstFatal (t : Token) (errors : List Error) : Prop :=
  ∃ newer fault older, errors = newer ++ .syntactic fault t :: older ∧ fault.isFatal = true ∧ Clean older

theorem FirstFatal.later {errors errors' : List Error} (h : FirstFatal t errors) (hlater : errors <:+ errors') :
    FirstFatal t errors' := by
  obtain ⟨newer,fault,older,rfl,hfault,hclean⟩ := h
  obtain ⟨newest,rfl⟩ := hlater
  exact ⟨newest ++ newer,fault,older,(List.append_assoc _ _ _).symm,hfault,hclean⟩

/-- From tokens in front of which the futures `F` are possible, a run has come, without a fatal error, to where just
the futures `K` are possible that begin with the next token. Or the first fatal error in it is at the first token
with which no future goes on. -/
inductive Foreseen (F K : Future) (rest : List Token) : EStateM.Result Error Reader α → Prop
  | clear (us : List Token) {a r'} : rest = us ++ r'.rest → Ended r'.rest → Clean r'.errors → (∀ z ∈ K, us ++ z ∈ F) →
      (∀ z, us ++ r'.next :: z ∈ F → r'.next :: z ∈ K) → Foreseen F K rest (.ok a r')
  | stuck (us : List Token) {t later x} : rest = us ++ t :: later → FirstFatal t (found x) → (∃ z, us ++ z ∈ F) →
      (∀ z, us ++ t :: z ∉ F) → Foreseen F K rest x

/-- On at most `k` tokens in front of which the futures `F` are possible, the parser comes to the futures `K` or stops
at the first token with which no future goes on. -/
structure Foresees (k : Nat) (F K : Future) (p : Parser α) : Prop where
  keeps : Keeps p
  sees : ∀ ⦃r⦄, Ended r.rest → r.rest.length ≤ k → Clean r.errors → Foreseen F K r.rest (p r)

namespace Foreseen

variable {x : EStateM.Result Error Reader α}

/-- Futures that do not begin with the next token make no difference. -/
theorem narrow (h : Foreseen N K (t :: ts) x) (hN : ∀ z ∈ N, z ∈ F) (ht : ∀ z, t :: z ∈ F → t :: z ∈ N) :
    Foreseen F K (t :: ts) x := by
  have hcons {us : List Token} {u : Token} {later : List Token} (hsplit : t :: ts = us ++ u :: later)
      (z : List Token) (hz : us ++ u :: z ∈ F) : us ++ u :: z ∈ N := by
    cases us with
    | nil =>
      obtain ⟨rfl,-⟩ := List.cons.inj hsplit
      exact ht z hz
    | cons v us =>
      obtain ⟨rfl,-⟩ := List.cons.inj hsplit
      exact ht _ hz
  cases h with
  | @clear us a r' hsplit hended hclean hK hF =>
    obtain ⟨u,later,hu⟩ := hended.exists_cons
    have hnext : r'.next = u := by simp [Reader.next,hu]
    have hsplit' : t :: ts = us ++ r'.next :: later := by rw [hsplit,hu,hnext]
    exact .clear us hsplit hended hclean (fun z hz => hN _ (hK z hz)) fun z hz => hF z (hcons hsplit' z hz)
  | stuck us hsplit hfirst hpossible himpossible =>
    exact .stuck us hsplit hfirst (hpossible.imp fun z hz => hN _ hz) fun z hz => himpossible z (hcons hsplit z hz)

/-- A token has been passed over. -/
theorem step (h : Foreseen G K ts x) (hG : ∀ z, z ∈ G ↔ t :: z ∈ F) : Foreseen F K (t :: ts) x := by
  cases h with
  | clear us hsplit hended hclean hK hF =>
    exact .clear (t :: us) (congrArg (t :: ·) hsplit) hended hclean (fun z hz => (hG _).mp (hK z hz))
      fun z hz => hF z ((hG _).mpr hz)
  | stuck us hsplit hfirst hpossible himpossible =>
    exact .stuck (t :: us) (congrArg (t :: ·) hsplit) hfirst (hpossible.imp fun z hz => (hG _).mp hz)
      fun z hz => himpossible z ((hG _).mpr hz)

theorem fail {fault : SyntaxFault} (hfault : fault.isFatal = true) (hr : r.rest = t :: ts) (hclean : Clean r.errors)
    (himpossible : ∀ z, t :: z ∉ F) : Foreseen F K (t :: ts) (fail fault r : EStateM.Result Error Reader α) := by
  have hnext : r.next = t := by simp [Reader.next,hr]
  exact .stuck [] rfl ⟨[],fault,r.errors,by simp [found,Parser.fail,Reader.note,hnext],hfault,hclean⟩
    F.possible himpossible

/-- What follows sees what may come behind the tokens that have been passed over. -/
theorem bind (h : Foreseen F G r.rest (p r)) (hkeeps : ∀ a, Keeps (f a))
    (hf : ∀ a r', p r = .ok a r' → Ended r'.rest → r'.rest.length ≤ r.rest.length → Clean r'.errors →
      Foreseen G K r'.rest (f a r')) : Foreseen F K r.rest ((p >>= f) r) := by
  have hfound := found_bind (p := p) hkeeps r
  simp only [Bind.bind,EStateM.bind] at hfound ⊢
  generalize p r = x at h hf hfound
  cases h with
  | @clear us a r' hsplit hended hclean hG hF =>
    have hlength := congrArg List.length hsplit
    rw [List.length_append] at hlength
    have hlater := hf a r' rfl hended (by omega) hclean
    simp only
    generalize f a r' = y at hlater
    -- The tokens that are passed over later begin with the one that comes next now.
    obtain ⟨t,ts,hts⟩ := hended.exists_cons
    have hnext : r'.next = t := by simp [Reader.next,hts]
    have hcons {vs : List Token} {u : Token} {later : List Token} (hvs : r'.rest = vs ++ u :: later)
        (z : List Token) (hz : us ++ (vs ++ u :: z) ∈ F) : vs ++ u :: z ∈ G := by
      have hhead : ∃ w, vs ++ u :: z = r'.next :: w := by
        cases vs with
        | nil => exact ⟨z,by rw [hnext,(List.cons.inj (hts.symm.trans hvs)).1]; rfl⟩
        | cons v vs => exact ⟨vs ++ u :: z,by rw [hnext,(List.cons.inj (hts.symm.trans hvs)).1]; rfl⟩
      obtain ⟨w,hw⟩ := hhead
      rw [hw] at hz ⊢
      exact hF w hz
    cases hlater with
    | @clear vs b r'' hsplit' hended' hclean' hK hG' =>
      obtain ⟨u,later,hu⟩ := hended'.exists_cons
      have hnext' : r''.next = u := by simp [Reader.next,hu]
      refine .clear (us ++ vs) ?_ hended' hclean' (fun z hz => ?_) fun z hz => hG' z ?_
      · rw [hsplit,hsplit',List.append_assoc]
      · rw [List.append_assoc]
        exact hG _ (hK z hz)
      · rw [List.append_assoc] at hz
        exact hcons (hsplit'.trans (by rw [hu,hnext'])) z hz
    | @stuck vs u later _ hsplit' hfatal hpossible himpossible =>
      have hwhole : r.rest = us ++ vs ++ u :: later := by rw [hsplit,hsplit',List.append_assoc]
      refine .stuck (us ++ vs) hwhole hfatal ?_ fun z hz => ?_
      · obtain ⟨z,hz⟩ := hpossible
        exact ⟨z,by rw [List.append_assoc]; exact hG _ hz⟩
      · rw [List.append_assoc] at hz
        exact himpossible z (hcons hsplit' z hz)
  | stuck us hsplit hfatal hpossible himpossible =>
    exact .stuck us hsplit (hfatal.later hfound) hpossible himpossible

end Foreseen

namespace Foresees

theorem mono (h : Foresees k F K p) (hk : k' ≤ k) : Foresees k' F K p :=
  ⟨h.keeps,fun _ hended hlength => h.sees hended (Nat.le_trans hlength hk)⟩

/-- There is always the end mark. -/
theorem zero (h : Keeps p) : Foresees 0 F K p := by
  refine ⟨h,fun r hended hk => ?_⟩
  obtain ⟨t,ts,hts⟩ := hended.exists_cons
  simp [hts] at hk

/-- Nothing is read. -/
theorem idle {a : Reader → α} {change : Reader → Reader} (hp : ∀ r, p r = .ok (a r) (change r)) (hkeeps : Keeps p)
    (hrest : ∀ r, (change r).rest = r.rest) (hclean : ∀ r : Reader, Clean r.errors → Clean (change r).errors) :
    Foresees k K K p := by
  refine ⟨hkeeps,fun r hended _ hr => ?_⟩
  rw [hp]
  exact .clear [] (hrest r).symm ((hrest r).symm ▸ hended) (hclean r hr) (fun _ hz => hz) fun _ hz => hz

theorem pure (a : α) : Foresees k K K (pure a : Parser α) :=
  idle (fun _ => rfl) (.pure a) (fun _ => rfl) fun _ h => h

theorem note (e : Event) : Foresees k K K (note e) :=
  idle (fun _ => rfl) (.note e) (fun _ => rfl) fun _ h => h

theorem freshId : Foresees k K K freshId :=
  idle (fun _ => rfl) .freshId (fun _ => rfl) fun _ h => h

theorem peek : Foresees k K K peek := idle (fun _ => rfl) .peek (fun _ => rfl) fun _ h => h

theorem report {fault : SyntaxFault} (hfault : fault.isFatal = false) (found : Token) :
    Foresees k K K (report fault found) :=
  idle (fun _ => rfl) (.report fault found) (fun _ => rfl) fun _ h =>
    List.forall_mem_cons.mpr ⟨hfault,h⟩

theorem bind (h : Foresees k F G p) (hf : ∀ a, Foresees k G K (f a)) : Foresees k F K (p >>= f) := by
  refine ⟨h.keeps.bind fun a => (hf a).keeps,fun r hended hk hclean => ?_⟩
  refine (h.sees hended hk hclean).bind (fun a => (hf a).keeps) fun a r' _ hended' hlength hclean' => ?_
  exact (hf a).sees hended' (Nat.le_trans hlength hk) hclean'

theorem map {g : α → β} (h : Foresees k F K p) : Foresees k F K (g <$> p) := by
  rw [map_eq_pure_bind]
  exact h.bind fun a => .pure (g a)

/-- Behind a token that is taken there is one token less. -/
theorem bind_take? {f : Option Token → Parser β} (heof : Kind.eof ∉ kinds) (hnone : Foresees k N K (f none))
    (hN : ∀ z ∈ N, z ∈ F) (hN' : ∀ t z, t.kind ∉ kinds → t :: z ∈ F → t :: z ∈ N)
    (hsome : ∀ t, t.kind ∈ kinds → ∃ G, (∀ z, z ∈ G ↔ t :: z ∈ F) ∧ Foresees (k - 1) G K (f (some t))) :
    Foresees k F K (take? kinds >>= f) := by
  refine ⟨.bind_take? hnone.keeps fun t ht => ?_,fun r hended hk hclean => ?_⟩
  · obtain ⟨G,-,h⟩ := hsome t ht
    exact h.keeps
  · obtain ⟨t,ts,hts⟩ := hended.exists_cons
    simp only [Bind.bind,EStateM.bind,take?,hts]
    by_cases ht : t.kind ∈ kinds
    · obtain ⟨G,hG,h⟩ := hsome t ht
      have hne : t.kind ≠ .eof := fun h => heof (h ▸ ht)
      have hlength : ts.length ≤ k - 1 := by simpa [hts] using Nat.sub_le_sub_right hk 1
      simp only [if_pos ht]
      exact (h.sees (r := { r with rest := ts }) ((hts ▸ hended).tail hne) hlength hclean).step hG
    · simp only [if_neg ht]
      have hlater := hnone.sees hended hk hclean
      rw [hts] at hlater
      exact hlater.narrow hN fun z => hN' t z ht

theorem expect {kind : Kind} (hkind : kind ≠ .eof) (what : Expectation) :
    Foresees k ((Pattern.token kind).before K) K (expect kind what) := by
  refine ⟨.expect kind what,fun r hended _ hclean => ?_⟩
  obtain ⟨t,ts,hts⟩ := hended.exists_cons
  by_cases ht : t.kind = kind
  · have hexpect : Parser.expect kind what r = .ok t { r with rest := ts } := by
      simp only [Parser.expect,Bind.bind,EStateM.bind,take?,hts,List.mem_singleton,ht,if_true]
      rfl
    rw [hexpect,hts]
    refine .clear [t] rfl ((hts ▸ hended).tail (ht ▸ hkind)) hclean (fun z hz => ?_) fun z hz => ?_
    · exact Pattern.cons_mem_token.mpr ⟨ht,hz⟩
    · exact (Pattern.cons_mem_token.mp hz).2
  · have hexpect : Parser.expect kind what r = Parser.fail (.expected what) r := by
      simp only [Parser.expect,Bind.bind,EStateM.bind,take?,hts,List.mem_singleton,ht,if_false]
    rw [hexpect,hts]
    exact .fail rfl hts hclean fun z hz => ht (Pattern.cons_mem_token.mp hz).1

end Foresees
end Parser
end Lox

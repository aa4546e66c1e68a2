import Lox.Proofs.Syntax.Reading
import Mathlib.Data.List.Basic

/-! Two parses side by side, of a token list and of the same list with more behind its end mark. They stay
together as long as each has a budget greater than the number of tokens. -/
namespace Lox

/-- Token lists with an end mark as the last token and nowhere else. -/
inductive Ended : List Token → Prop
  | mark {t} : t.kind = .eof → Ended [t]
  | cons {t ts} : t.kind ≠ .eof → Ended ts → Ended (t :: ts)

namespace Ended

variable {t mark : Token} {ts : List Token}

theorem append {us : List Token} (hts : ∀ t ∈ ts, t.kind ≠ .eof) (h : Ended us) : Ended (ts ++ us) := by
  induction ts with
  | nil => exact h
  | cons t ts ih =>
    obtain ⟨ht,hts⟩ := List.forall_mem_cons.mp hts
    exact .cons ht (ih hts)

theorem append_mark (hmark : mark.kind = .eof) (hts : ∀ t ∈ ts, t.kind ≠ .eof) : Ended (ts ++ [mark]) :=
  .append hts (.mark hmark)

theorem exists_cons (h : Ended ts) : ∃ t us, ts = t :: us := by
  cases h with
  | mark => exact ⟨_,_,rfl⟩
  | cons => exact ⟨_,_,rfl⟩

theorem tail (h : Ended (t :: ts)) (ht : t.kind ≠ .eof) : Ended ts := by
  cases h with
  | mark heof => exact absurd heof ht
  | cons _ h => exact h

theorem nothing_behind (h : Ended (t :: ts)) (ht : t.kind = .eof) : ts = [] := by
  cases h with
  | mark => rfl
  | cons hne => exact absurd ht hne

theorem of_suffix {us : List Token} (h : Ended ts) (hsuffix : us <:+ ts) (hne : us ≠ []) : Ended us := by
  induction h with
  | @mark t ht =>
    obtain rfl : us = [t] := by simpa [hne] using List.suffix_cons_iff.mp hsuffix
    exact .mark ht
  | cons ht h ih =>
    rcases List.suffix_cons_iff.mp hsuffix with rfl | hsuffix
    · exact .cons ht h
    · exact ih hsuffix

end Ended

/-- An error after which the current declaration is given up. -/
def SyntaxFault.isFatal : SyntaxFault → Bool
  | expected _ | expectedExpression => true
  | invalidAssignmentTarget | tooManyParameters | tooManyArguments => false

/-- The token at which a fatal syntax error was found, unless it is the end mark. -/
def Error.blamed? : Error → Option Token
  | syntactic fault found => if fault.isFatal && !found.isEof then some found else none
  | _ => none

/-- The tokens blamed by errors that are kept newest first, in the order in which they were found. -/
def blamed (errors : List Error) : List Token := (errors.filterMap Error.blamed?).reverse

theorem blamed_append (new old : List Error) : blamed (new ++ old) = blamed old ++ blamed new := by
  simp [blamed]

theorem blamed_of_not_fatal {fault : SyntaxFault} (h : fault.isFatal = false) (found : Token) :
    blamed [.syntactic fault found] = [] := by
  simp [blamed,Error.blamed?,h]

theorem blamed_mark (fault : SyntaxFault) {mark : Token} (h : mark.kind = .eof) :
    blamed [.syntactic fault mark] = [] := by
  simp [blamed,Error.blamed?,Token.isEof,h]

theorem blamed_single (fault : SyntaxFault) (found : Token) :
    (blamed [.syntactic fault found]).Sublist [found] := by
  by_cases h : fault.isFatal && !found.isEof <;> simp [blamed,Error.blamed?,h]

namespace Reader

/-- A parse has gone on by some tokens and has recorded some errors. -/
structure Passes (us : List Token) (new : List Error) (r r' : Reader) : Prop where
  rest : r.rest = us ++ r'.rest
  errors : r'.errors = new ++ r.errors

/-- Two parses are at the same point, and the second one has more tokens behind the end mark. -/
structure Paired (behind : List Token) (r s : Reader) : Prop where
  ended : Ended r.rest
  rest : s.rest = r.rest ++ behind
  allocated : s.allocated = r.allocated

variable {behind us vs : List Token} {new more : List Error} {r r' r'' s s' : Reader}

theorem Passes.refl (r : Reader) : Passes [] [] r r := ⟨rfl,rfl⟩

theorem Passes.trans (h : Passes us new r r') (h' : Passes vs more r' r'') :
    Passes (us ++ vs) (more ++ new) r r'' where
  rest := by rw [h.rest,h'.rest,List.append_assoc]
  errors := by rw [h'.errors,h.errors,List.append_assoc]

theorem Passes.length_le (h : Passes us new r r') : r'.rest.length ≤ r.rest.length := by
  simp [h.rest]

theorem Paired.self (h : Ended r.rest) : Paired [] r r := ⟨h,by simp,rfl⟩

theorem Paired.next (h : Paired behind r s) : s.next = r.next := by
  obtain ⟨t,ts,hts⟩ := h.ended.exists_cons
  simp [Reader.next,h.rest,hts]

end Reader

namespace Parser

open Reader

variable {α β : Type} {same same' moves moves' : Prop} {behind us : List Token} {new : List Error}
  {k : Nat} {r s : Reader} {p q : Parser α} {f g : α → Parser β}

/-- Two outcomes that pass over the same tokens and record the same errors, which blame only tokens that
were passed over, each once; a fatal error blames the token in front of which it leaves the parse.
`same` tells whether the results are equal and `moves` whether a token is passed over on success. -/
inductive Together (same moves : Prop) (behind : List Token) (r s : Reader) :
    EStateM.Result Error Reader α → EStateM.Result Error Reader α → Prop
  | ok {us new a b r' s'} : Passes us new r r' → Passes us new s s' → (blamed new).Sublist us →
      Paired behind r' s' → (moves → r.next.kind ≠ .eof → us ≠ []) → (same → a = b) →
      Together same moves behind r s (.ok a r') (.ok b s')
  | error {us new fault r' s'} : Passes us new r r' → Passes us new s s' → (blamed new).Sublist us →
      Paired behind r' s' → fault.isFatal →
      Together same moves behind r s (.error (.syntactic fault r'.next) r')
        (.error (.syntactic fault r'.next) s')

/-- On at most `k` tokens the two parsers stay together. -/
def Steady (same moves : Prop) (k : Nat) (p q : Parser α) : Prop :=
  ∀ ⦃behind r s⦄, Paired behind r s → r.rest.length ≤ k → Together same moves behind r s (p r) (q s)

namespace Together

theorem still {a b : α} {r' s' : Reader} (hr : Passes [] [] r r') (hs : Passes [] [] s s')
    (hpaired : Paired behind r' s') (hab : same → a = b) :
    Together same False behind r s (.ok a r') (.ok b s') :=
  .ok hr hs (List.Sublist.refl _) hpaired (fun hm => hm.elim) hab

/-- What is behind some tokens that have been passed over. -/
theorem after {r' s' : Reader} {x y : EStateM.Result Error Reader α} (hr : Passes us new r r')
    (hs : Passes us new s s') (hblamed : (blamed new).Sublist us)
    (hmoves : moves → r.next.kind ≠ .eof → us = [] → moves' ∧ r'.next.kind ≠ .eof)
    (h : Together same moves' behind r' s' x y) : Together same moves behind r s x y := by
  cases h with
  | @ok vs more a b r'' s'' hr' hs' hblamed' hpaired hmoves' hsame =>
    refine .ok (hr.trans hr') (hs.trans hs') ?_ hpaired (fun hm hnext hnil => ?_) hsame
    · exact blamed_append more new ▸ hblamed.append hblamed'
    · obtain ⟨hus,hvs⟩ := List.append_eq_nil_iff.mp hnil
      obtain ⟨hm',hnext'⟩ := hmoves hm hnext hus
      exact hmoves' hm' hnext' hvs
  | @error vs more fault r'' s'' hr' hs' hblamed' hpaired hfatal =>
    refine .error (hr.trans hr') (hs.trans hs') ?_ hpaired hfatal
    exact blamed_append more new ▸ hblamed.append hblamed'

end Together

namespace Steady

theorem weaken (h : Steady same moves k p q) (hsame : same' → same) (hmoves : moves' → moves) :
    Steady same' moves' k p q := by
  intro behind r s hpaired hk
  generalize hx : p r = x, hy : q s = y
  have hxy := hx ▸ hy ▸ h hpaired hk
  cases hxy with
  | ok hr hs hblamed hpaired' hm hab =>
    exact .ok hr hs hblamed hpaired' (fun h => hm (hmoves h)) (fun h => hab (hsame h))
  | error hr hs hblamed hpaired' hfatal => exact .error hr hs hblamed hpaired' hfatal

theorem mono {k' : Nat} (h : Steady same moves k p q) (hk : k' ≤ k) : Steady same moves k' p q :=
  fun _ _ _ hpaired hlength => h hpaired (Nat.le_trans hlength hk)

/-- There is always the end mark. -/
theorem zero : Steady same moves 0 p q := by
  intro behind r s hpaired hk
  obtain ⟨t,ts,hts⟩ := hpaired.ended.exists_cons
  simp [hts] at hk

theorem pure {a b : α} (h : same → a = b) : Steady same False k (pure a) (pure b) :=
  fun _ _ _ hpaired _ => .still (.refl _) (.refl _) hpaired h

/-- The second parser goes on from where the first one has stopped; one of them passes over a token. -/
theorem bind (h : Steady same moves k p q)
    (hf : ∀ a b, (same → a = b) → Steady same' moves' k (f a) (g b)) :
    Steady same' moves' k (p >>= f) (q >>= g) := by
  intro behind r s hpaired hk
  simp only [Bind.bind,EStateM.bind]
  generalize hx : p r = x, hy : q s = y
  have hxy := hx ▸ hy ▸ h hpaired hk
  cases hxy with
  | @ok us new a b r' s' hr hs hblamed hpaired' _ hab =>
    have hlater := hf a b hab hpaired' (Nat.le_trans hr.length_le hk)
    refine hlater.after hr hs hblamed fun hm hnext hus => ⟨hm,?_⟩
    have hrest : r.rest = r'.rest := by simpa [hus] using hr.rest
    simpa only [Reader.next,← hrest] using hnext
  | error hr hs hblamed hpaired' hfatal => exact .error hr hs hblamed hpaired' hfatal

theorem bind_moves (h : Steady same True k p q)
    (hf : ∀ a b, (same → a = b) → Steady same' False k (f a) (g b)) :
    Steady same' True k (p >>= f) (q >>= g) := by
  intro behind r s hpaired hk
  simp only [Bind.bind,EStateM.bind]
  generalize hx : p r = x, hy : q s = y
  have hxy := hx ▸ hy ▸ h hpaired hk
  cases hxy with
  | @ok us new a b r' s' hr hs hblamed hpaired' hm hab =>
    have hlater := hf a b hab hpaired' (Nat.le_trans hr.length_le hk)
    exact hlater.after hr hs hblamed fun _ hnext hus => absurd hus (hm trivial hnext)
  | error hr hs hblamed hpaired' hfatal => exact .error hr hs hblamed hpaired' hfatal

theorem map {f : α → β} (h : Steady same moves k p q) : Steady same moves k (f <$> p) (f <$> q) := by
  intro behind r s hpaired hk
  rw [map_eq_pure_bind,map_eq_pure_bind]
  simp only [Bind.bind,EStateM.bind]
  generalize hx : p r = x, hy : q s = y
  have hxy := hx ▸ hy ▸ h hpaired hk
  cases hxy with
  | ok hr hs hblamed hpaired' hm hab => exact .ok hr hs hblamed hpaired' hm fun hsame => congrArg f (hab hsame)
  | error hr hs hblamed hpaired' hfatal => exact .error hr hs hblamed hpaired' hfatal

/-! ### Steps -/

theorem fail {fault : SyntaxFault} (h : fault.isFatal) :
    Steady same moves k (fail fault : Parser α) (fail fault) := by
  intro behind r s hpaired hk
  have hs : Parser.fail fault s = (.error (.syntactic fault r.next)
      (s.note (.errorCreated (.syntactic fault r.next))) : EStateM.Result Error Reader α) := by
    rw [← hpaired.next]
    rfl
  rw [hs]
  exact @Together.error _ _ _ _ _ _ [] [] _ (r.note _) _ ⟨rfl,rfl⟩ ⟨rfl,rfl⟩ (List.Sublist.refl _)
    ⟨hpaired.ended,hpaired.rest,hpaired.allocated⟩ h

theorem report {fault : SyntaxFault} (h : fault.isFatal = false) (found : Token) :
    Steady True False k (report fault found) (report fault found) :=
  fun _ _ _ hpaired _ => @Together.ok _ _ _ _ _ _ [] [.syntactic fault found] _ _ _ _ ⟨rfl,rfl⟩ ⟨rfl,rfl⟩
    (by rw [blamed_of_not_fatal h]) ⟨hpaired.ended,hpaired.rest,hpaired.allocated⟩
    (fun hm => hm.elim) (fun _ => rfl)

theorem note (e e' : Event) : Steady True False k (note e) (note e') :=
  fun _ _ _ hpaired _ => .still ⟨rfl,rfl⟩ ⟨rfl,rfl⟩ ⟨hpaired.ended,hpaired.rest,hpaired.allocated⟩ fun _ => rfl

theorem peek : Steady True False k peek peek :=
  fun _ _ _ hpaired _ => .still (.refl _) (.refl _) hpaired fun _ => hpaired.next.symm

theorem freshId : Steady True False k freshId freshId :=
  fun _ _ _ hpaired _ => .still ⟨rfl,rfl⟩ ⟨rfl,rfl⟩
    ⟨hpaired.ended,hpaired.rest,congrArg (· + 1) hpaired.allocated⟩
    fun _ => congrArg ExprId.numbered hpaired.allocated.symm

/-- Behind a token that is taken there is one token less. -/
theorem bind_take? {kinds : List Kind} {f g : Option Token → Parser β} (hkinds : Kind.eof ∉ kinds)
    (hnone : Steady same moves (k + 1) (f none) (g none))
    (hsome : ∀ t, t.kind ∈ kinds → Steady same False k (f (some t)) (g (some t))) :
    Steady same moves (k + 1) (take? kinds >>= f) (take? kinds >>= g) := by
  intro behind r s hpaired hk
  obtain ⟨t,ts,hts⟩ := hpaired.ended.exists_cons
  have hs := hpaired.rest
  rw [hts] at hs
  simp only [Bind.bind,EStateM.bind,take?,hts,hs,List.cons_append]
  by_cases ht : t.kind ∈ kinds
  · simp only [if_pos ht]
    have hne : t.kind ≠ .eof := fun heof => hkinds (heof ▸ ht)
    have hpaired' : Paired behind { r with rest := ts } { s with rest := ts ++ behind } :=
      ⟨(hts ▸ hpaired.ended).tail hne,rfl,hpaired.allocated⟩
    have hr' : Passes [t] [] r { r with rest := ts } := ⟨hts,rfl⟩
    have hs' : Passes [t] [] s { s with rest := ts ++ behind } := ⟨hs,rfl⟩
    have hlater := hsome t ht hpaired' (by simpa [hts] using hk)
    exact hlater.after hr' hs' (List.nil_sublist _) (by simp)
  · simp only [if_neg ht]
    exact hnone hpaired hk

theorem expect {kind : Kind} (hkind : kind ≠ .eof) (what : Expectation) :
    Steady True True k (expect kind what) (expect kind what) := by
  cases k with
  | zero => exact .zero
  | succ k => exact bind_take? (by simpa using hkind.symm) (.fail rfl) fun t _ => .pure fun _ => rfl

/-- A parser that moves leaves fewer tokens. -/
theorem shorter (h : Steady same True k p p) (hended : Ended r.rest) (hk : r.rest.length ≤ k)
    (hnext : r.next.kind ≠ .eof) {a : α} {r' : Reader} (hp : p r = .ok a r') :
    r'.rest.length < r.rest.length ∧ Ended r'.rest := by
  have hself := hp ▸ h (.self hended) hk
  cases hself with
  | ok hr _ _ hpaired hm =>
    have hpos := List.length_pos_of_ne_nil (hm trivial hnext)
    refine ⟨?_,hpaired.ended⟩
    rw [hr.rest,List.length_append]
    omega

end Steady

/-- The two parsers stay together where the next token is not the end mark. -/
def Inside (same moves : Prop) (k : Nat) (p q : Parser α) : Prop :=
  ∀ ⦃behind r s⦄, Paired behind r s → r.rest.length ≤ k → r.next.kind ≠ .eof →
    Together same moves behind r s (p r) (q s)

theorem Steady.inside (h : Steady same moves k p q) : Inside same moves k p q :=
  fun _ _ _ hpaired hk _ => h hpaired hk

theorem Steady.bind_peek {f g : Token → Parser β}
    (hmark : ∀ t, t.kind = .eof → Steady same moves k (f t) (g t))
    (hinside : ∀ t, t.kind ≠ .eof → Inside same moves k (f t) (g t)) :
    Steady same moves k (Parser.peek >>= f) (Parser.peek >>= g) := by
  intro behind r s hpaired hk
  change Together same moves behind r s (f r.next r) (g s.next s)
  rw [hpaired.next]
  by_cases hnext : r.next.kind = .eof
  · exact hmark _ hnext hpaired hk
  · exact hinside _ hnext hpaired hk hnext

namespace Inside

/-- Behind a parser that moves there are fewer tokens. -/
theorem bind (h : Inside same True (k + 1) p q)
    (hf : ∀ a b, (same → a = b) → Steady same' False k (f a) (g b)) :
    Inside same' moves (k + 1) (p >>= f) (q >>= g) := by
  intro behind r s hpaired hk hnext
  simp only [Bind.bind,EStateM.bind]
  generalize hx : p r = x, hy : q s = y
  have hxy := hx ▸ hy ▸ h hpaired hk hnext
  cases hxy with
  | @ok us new a b r' s' hr hs hblamed hpaired' hm hab =>
    have hlength := congrArg List.length hr.rest
    rw [List.length_append] at hlength
    have hpos := List.length_pos_of_ne_nil (hm trivial hnext)
    have hlater := hf a b hab hpaired' (by omega)
    exact hlater.after hr hs hblamed fun _ _ hus => absurd hus (hm trivial hnext)
  | error hr hs hblamed hpaired' hfatal => exact .error hr hs hblamed hpaired' hfatal

theorem skip : Inside True True k skip skip := by
  intro behind r s hpaired _ hnext
  obtain ⟨t,ts,hts⟩ := hpaired.ended.exists_cons
  have ht : t.kind ≠ .eof := by simpa [Reader.next,hts] using hnext
  have hr : Passes [t] [] r { r with rest := ts } := ⟨hts,rfl⟩
  have hs : Passes [t] [] s { s with rest := ts ++ behind } := ⟨by simp [hpaired.rest,hts],rfl⟩
  have hskip {r : Reader} {ts : List Token} (hts : r.rest = t :: ts) :
      Parser.skip r = .ok () { r with rest := ts } := by
    obtain ⟨_,_,_,_⟩ := r
    cases hts
    rw [skip_cons,show t.isEof = false by simpa [Token.isEof] using ht]
    rfl
  rw [hskip hts,hskip hs.rest]
  exact .ok hr hs (List.nil_sublist _) ⟨(hts ▸ hpaired.ended).tail ht,rfl,hpaired.allocated⟩
    (fun _ _ => by simp) (fun _ => rfl)

theorem bind_skip {f g : Unit → Parser β} (h : Steady same False k (f ()) (g ())) :
    Inside same moves (k + 1) (Parser.skip >>= f) (Parser.skip >>= g) :=
  skip.bind fun _ _ _ => h

theorem bind_freshId {f g : ExprId → Parser β} (h : ∀ id, Inside same moves k (f id) (g id)) :
    Inside same moves k (freshId >>= f) (freshId >>= g) := by
  intro behind r s hpaired hk hnext
  change Together same moves behind r s
    (f (.numbered r.allocated) { r with allocated := r.allocated + 1 })
    (g (.numbered s.allocated) { s with allocated := s.allocated + 1 })
  rw [hpaired.allocated]
  have hr : Passes [] [] r { r with allocated := r.allocated + 1 } := ⟨rfl,rfl⟩
  have hs : Passes [] [] s { s with allocated := r.allocated + 1 } := ⟨rfl,rfl⟩
  have hpaired' : Paired behind { r with allocated := r.allocated + 1 } { s with allocated := r.allocated + 1 } :=
    ⟨hpaired.ended,hpaired.rest,rfl⟩
  exact (h _ hpaired' hk hnext).after hr hs (List.Sublist.refl _) fun hm _ _ => ⟨hm,hnext⟩

end Inside
end Parser
end Lox

import Lox.Proofs.Syntax.Budget

/-! A parse comes to an end on any token list, and each of its loops makes progress. -/
namespace Lox
namespace Parser

variable {α : Type} {same moves : Prop} {k n : Nat} {p : Parser α}

/-- A run stops inside the token list, at or behind the token in front of which it started. -/
def Forward (r : Reader) : EStateM.Result Error Reader α → Prop
  | .ok _ r' | .error _ r' => r'.rest ≠ [] ∧ r'.rest <:+ r.rest

variable {r : Reader} {item : Parser (Option α)} {closing : List Kind}

theorem Steady.forward (h : Steady same moves k p p) (hended : Ended r.rest) (hk : r.rest.length ≤ k) :
    Forward r (p r) := by
  have hself := h (.self hended) hk
  generalize p r = x at hself ⊢
  cases hself with
  | ok hr _ _ hpaired | error hr _ _ hpaired =>
    obtain ⟨t,ts,hts⟩ := hpaired.ended.exists_cons
    exact ⟨by simp [hts],⟨_,hr.rest.symm⟩⟩

theorem manyUntil_exit (hclosing : Kind.eof ∈ closing) (h : Steady same True k item item) (hn : k ≤ n)
    (hended : Ended r.rest) (hk : r.rest.length ≤ k) {xs : List α} {r' : Reader}
    (hp : manyUntil closing item n r = .ok xs r') : r'.next.kind ∈ closing := by
  induction n generalizing k r xs with
  | zero =>
    obtain ⟨t,ts,hts⟩ := hended.exists_cons
    rw [hts,List.length_cons] at hk
    omega
  | succ n ih =>
    change (if r.next.kind ∈ closing then (Pure.pure [] : Parser (List α)) else _) r = _ at hp
    split at hp
    next hnext =>
      cases hp
      exact hnext
    next hnext =>
      have hne : r.next.kind ≠ .eof := fun heof => hnext (heof ▸ hclosing)
      simp only [Bind.bind,EStateM.bind] at hp
      split at hp
      next x r₁ hitem =>
        obtain ⟨hshort,hended₁⟩ := h.shorter hended hk hne hitem
        split at hp
        next ys r₂ hlater =>
          cases hp
          exact ih (h.mono (Nat.sub_le k 1)) (by omega) hended₁ (by omega) hlater
        next => cases hp
      next => cases hp

/-- The loop over the declarations of a whole program. -/
def program (n : Nat) : Parser (List Stmt) := manyUntil [.eof] (declaration n) n

theorem program_steady {m : Nat} (hn : k < n) (hm : k < m) : Steady True False k (program n) (program m) :=
  manyUntil_steady (by simp) (innerStatement_declaration_steady hn hm).2 (Nat.le_of_lt hn) (Nat.le_of_lt hm)

/-- The errors with which a run ends, newest first. -/
def found : EStateM.Result Error Reader α → List Error
  | .ok _ r => r.errors
  | .error e r => e :: r.errors

/-- From a start without errors two runs find the same, and only tokens that are there are blamed. -/
theorem Together.found {behind : List Token} {s : Reader} {x y : EStateM.Result Error Reader α}
    (h : Together same moves behind r s x y) (hr : r.errors = []) (hs : s.errors = []) :
    found x = found y ∧ (blamed (found x)).Sublist r.rest := by
  cases h with
  | @ok us new a b r' s' hr' hs' hblamed =>
    have hnew : r'.errors = new := by rw [hr'.errors,hr,List.append_nil]
    have hnew' : s'.errors = new := by rw [hs'.errors,hs,List.append_nil]
    refine ⟨hnew.trans hnew'.symm,?_⟩
    change (blamed r'.errors).Sublist r.rest
    rw [hnew,hr'.rest]
    exact hblamed.trans (List.sublist_append_left us r'.rest)
  | @error us new fault r' s' hr' hs' hblamed hpaired =>
    have hnew : r'.errors = new := by rw [hr'.errors,hr,List.append_nil]
    have hnew' : s'.errors = new := by rw [hs'.errors,hs,List.append_nil]
    obtain ⟨t,ts,ht⟩ := hpaired.ended.exists_cons
    have hnext : r'.next = t := by simp [Reader.next,ht]
    have hlast : (blamed [.syntactic fault t]).Sublist (t :: ts) := (blamed_single fault t).trans (by simp)
    refine ⟨congrArg (_ :: ·) (hnew.trans hnew'.symm),?_⟩
    change (blamed ([.syntactic fault r'.next] ++ r'.errors)).Sublist r.rest
    rw [hnew,hnext,hr'.rest,ht,blamed_append]
    exact hblamed.append hlast

end Parser

/-- The reader in front of a whole token list. -/
def Reader.ofTokens (tokens : List Token) (ids : ExprIds) : Reader :=
  ⟨tokens,ids.allocated,[],[.parsing,.parserCreated tokens.length]⟩

theorem parse_run (tokens : List Token) (ids : ExprIds) : parse tokens ids =
    match Parser.program (tokens.length + 1) (.ofTokens tokens ids) with
    | .ok statements r => .ofReader statements r
    | .error e r => .ofReader [] (r.record e) := rfl

theorem parse_found (tokens : List Token) (ids : ExprIds) : (parse tokens ids).errors =
    (Parser.found (Parser.program (tokens.length + 1) (.ofTokens tokens ids))).reverse := by
  rw [parse_run]
  cases Parser.program (tokens.length + 1) (.ofTokens tokens ids) <;> rfl

end Lox

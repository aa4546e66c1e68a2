import Lox.Proofs.Session.Alike
import Lox.Proofs.Syntax.Completeness
import Lox.Proofs.Token.Newline

/-! A text that stands further down does the same: only errors that are raised at its own tokens are on later
lines. -/
namespace Lox

/-- Some tokens may be on lines further down, and only some identities are compared. -/
def Likeness.lowered (live : ExprId → Prop) (ts : List Token) (d : Nat) : Likeness where
  id i i' := i' = i ∧ live i
  token t t' := t' = t ∨ t ∈ ts ∧ t' = t.down d
  kind h := by rcases h with rfl | ⟨-,rfl⟩ <;> rfl
  lexeme h := by rcases h with rfl | ⟨-,rfl⟩ <;> rfl
  eof := .inl rfl

section

variable {live : ExprId → Prop} {us : List Token} {d : Nat}

theorem Likeness.lowered_distinguishes :
    (lowered (fun _ => True) us d).Distinguishes (lowered live us d) :=
  fun hi hj => by rw [hi.1,hj.1]

theorem Likeness.lowered_map {ts : List Token} (hts : ts ⊆ us) :
    List.Forall₂ (lowered live us d).token ts (ts.map (·.down d)) := by
  rw [List.forall₂_map_right_iff]
  exact List.forall₂_same.mpr fun t ht => .inr ⟨hts ht,rfl⟩

/-! ### Parsing -/

variable {i j k : Nat} {ts : List Token} {program : List Stmt}

theorem parse_phrase (h : Grammar.Program i ts program j) {mark : Token} (hmark : mark.kind = .eof) :
    (parse (ts ++ [mark]) ⟨i⟩).errors = [] ∧ (parse (ts ++ [mark]) ⟨i⟩).statements = program ∧
      (parse (ts ++ [mark]) ⟨i⟩).ids = ⟨j⟩ := by
  have hread := Parser.declarations_reads h [.eof] ((ts ++ [mark]).length + 1) ((ts ++ [mark]).length + 1)
    [mark] (by simp) (by simp; omega) (by simp; omega) (by simp [Parser.upcoming,hmark])
  obtain ⟨events,hread⟩ := hread [] [.parsing,.parserCreated (ts ++ [mark]).length]
  simp only [parse,hread,Parsed.ofReader]
  exact ⟨rfl,trivial,trivial⟩

/-- A program stays one when its tokens move down. -/
theorem Grammar.Declarations.lowered (h : Declarations i ts program j) (hts : ∀ t ∈ ts, t.kind ≠ .eof)
    (hsub : ts ⊆ us) : ∃ program', Declarations i (ts.map (·.down d)) program' j ∧
      Stmt.ListAlike (.lowered (fun _ => True) us d) program program' := by
  obtain ⟨hnone,hprogram,hids⟩ := parse_phrase h (Eq.refl (Token.eof 1).kind)
  have htokens : List.Forall₂ (Likeness.lowered (fun _ => True) us d).token (ts ++ [.eof 1])
      (ts.map (·.down d) ++ [.eof 1]) :=
    List.rel_append (Likeness.lowered_map hsub) (.cons (.inl rfl) .nil)
  obtain ⟨hstatements,herrors,hallocated⟩ :
      (parse (ts ++ [.eof 1]) ⟨i⟩).Alike (.lowered (fun _ => True) us d) 0
        (parse (ts.map (·.down d) ++ [.eof 1]) ⟨i⟩) :=
    parse_alike htokens rfl fun _ _ => ⟨rfl,trivial⟩
  rw [hnone,List.forall₂_nil_left_iff] at herrors
  rw [hprogram] at hstatements
  have hresult : (parse (ts.map (·.down d) ++ [.eof 1]) ⟨i⟩).result =
      .ok (parse (ts.map (·.down d) ++ [.eof 1]) ⟨i⟩).statements := by
    rw [Parsed.result,herrors]
    rfl
  have hkinds : ∀ t ∈ ts.map (·.down d), t.kind ≠ .eof := List.forall_mem_map.mpr hts
  obtain ⟨k,hphrase,hids'⟩ := parse_program hkinds (Eq.refl (Token.eof 1).kind) hresult
  rw [hids,hids'] at hallocated
  obtain rfl : k = j := hallocated
  exact ⟨_,hphrase,hstatements⟩

theorem Session.parse_of_phrase {s : Session} {source : String} (herrors : (scan source).errors = [])
    {mark : Token} (htokens : (scan source).tokens = ts ++ [mark]) (hmark : mark.kind = .eof)
    (h : Grammar.Program s.ids.allocated ts program j) :
    s.parse source = (.ok program,(s.read source).2) ∧ (s.read source).2.ids.allocated = j := by
  obtain ⟨hnone,hprogram,hids⟩ := Lox.parse_phrase h hmark
  rw [← htokens] at hnone hprogram hids
  have hempty : (Reading.ofSource source s.ids).errors.isEmpty := by
    rw [Reading.errors,Reading.ofSource,herrors,hnone]
    rfl
  refine ⟨?_,congrArg ExprIds.allocated hids⟩
  rw [Session.parse_eq,Reading.program,if_pos hempty]
  exact congrArg (fun p => (Except.ok p,(s.read source).2)) hprogram

end

/-! ### Errors -/

def Status.down (d : Nat) : Status → Status
  | .success => .success
  | .compileError errors => .compileError (errors.map (Error.down d))
  | .runtimeError e => .runtimeError (e.down d)
  | .exhausted => .exhausted

/-- An error does not move, or it is raised at a token that does. -/
theorem Error.Alike.lowered {live : ExprId → Prop} {us : List Token} {d : Nat} {e e' : Error}
    (h : e.Alike (.lowered live us d) e') :
    e' = e ∨ e' = e.down d ∧ ∃ t ∈ us, e.line? = some t.line := by
  cases h with
  | lexical | internal | output => exact .inl rfl
  | syntactic ht | static ht | runtime ht | stackOverflow ht =>
    rcases ht with rfl | ⟨hmem,rfl⟩
    · exact .inl rfl
    · exact .inr ⟨rfl,_,hmem,rfl⟩

namespace Status

variable {status status' : Status} {d : Nat}

/-- The run has stopped with an error on the line of one of these tokens. -/
def OnLineOf (us : List Token) : Status → Prop
  | .runtimeError e => ∃ t ∈ us, e.line? = some t.line
  | _ => False

theorem Alike.lowered {live : ExprId → Prop} {us : List Token} (h : status.Alike (.lowered live us d) status')
    (hrun : ∀ errors, status ≠ .compileError errors) :
    status' = status ∨ status' = status.down d ∧ status.OnLineOf us := by
  cases h with
  | success | exhausted => exact .inl rfl
  | compileError => exact absurd rfl (hrun _)
  | runtimeError h =>
    rcases h.lowered with rfl | ⟨rfl,hline⟩
    · exact .inl rfl
    · exact .inr ⟨rfl,hline⟩

end Status

/-! ### Blank lines -/

section

variable {runs : List Run} {programs : List (List Stmt)} {s : Session} {source source' : String} {budget d : Nat}

/-- A run without compile errors is the execution of a program that has been parsed and has no scoping errors. -/
theorem Session.exists_program (hrun : ∀ errors, (s.run budget source).1 ≠ .compileError errors) :
    ∃ program s', (s.announce source).parse source = (.ok program,s') ∧ (resolve program).errors = [] ∧
      s.run budget source = s'.execute budget program := by
  cases hs : (s.announce source).parse source with
  | mk outcome s' =>
    cases outcome with
    | error errors =>
      rw [Session.run_error hs] at hrun
      exact absurd rfl (hrun errors)
    | ok program =>
      refine ⟨program,s',rfl,?_,Session.run_ok hs⟩
      by_contra hrejected
      rw [Session.run_ok hs,Session.execute_rejected hrejected] at hrun
      exact hrun _ rfl

theorem Reached.same_lowered (h : Reached runs programs s) {live : ExprId → Prop} {us : List Token}
    (hlive : ∀ r ∈ runs, ∀ o ∈ places r.program, live o.1) :
    s.machine.Alike (.same (.lowered live us d)) s.machine :=
  (h.same hlive).relike (fun _ _ ht => .inl ht.1) fun _ _ => Iff.rfl

end

end Lox

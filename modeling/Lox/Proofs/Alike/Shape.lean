import Lox.Proofs.Alike.Parser

/-! Trees that are the same up to their identities. -/
namespace Lox

theorem Likeness.same_kind {t t' : Token} (h : t' = t) : t'.kind = t.kind := congrArg Token.kind h

theorem Likeness.same_lexeme {t t' : Token} (h : t' = t) : t'.lexeme = t.lexeme := congrArg Token.lexeme h

theorem Likeness.same_eof : Token.eof 1 = Token.eof 1 := rfl

/-- Tokens are alike themselves only, and identities make no difference. -/
def Likeness.shape : Likeness where
  id _ _ := True
  token t t' := t' = t
  kind := @Likeness.same_kind
  lexeme := @Likeness.same_lexeme
  eof := Likeness.same_eof

mutual

theorem Expr.Alike.symm : ∀ {e e' : Expr}, e.Alike .shape e' → e'.Alike .shape e
  | _,_,.literal => .literal
  | _,_,.grouping h => .grouping h.symm
  | _,_,.unary ht h => .unary ht.symm h.symm
  | _,_,.binary ha ht hb => .binary ha.symm ht.symm hb.symm
  | _,_,.logical ha ht hb => .logical ha.symm ht.symm hb.symm
  | _,_,.ternary ha hb hc => .ternary ha.symm hb.symm hc.symm
  | _,_,.variable _ ht => .variable trivial ht.symm
  | _,_,.assign _ ht h => .assign trivial ht.symm h.symm
  | _,_,.call h ht hs => .call h.symm ht.symm hs.symm
  | _,_,.get h ht => .get h.symm ht.symm
  | _,_,.set ha ht hb => .set ha.symm ht.symm hb.symm
  | _,_,.this _ ht => .this trivial ht.symm
  | _,_,.super _ ht hu => .super trivial ht.symm hu.symm

theorem Expr.ListAlike.symm : ∀ {es es' : List Expr}, Expr.ListAlike .shape es es' → Expr.ListAlike .shape es' es
  | _,_,.nil => .nil
  | _,_,.cons h hs => .cons h.symm hs.symm

end

theorem Expr.OptionAlike.symm {e e' : Option Expr} (h : Expr.OptionAlike .shape e e') :
    Expr.OptionAlike .shape e' e := by
  cases h with
  | none => exact .none
  | some h => exact .some h.symm

theorem Likeness.shape_tokens_symm {ts ts' : List Token} (h : List.Forall₂ Likeness.shape.token ts ts') :
    List.Forall₂ Likeness.shape.token ts' ts :=
  List.Forall₂.flip (h.imp fun _ _ => Eq.symm)

theorem Likeness.shape_tokens {ts ts' : List Token} (h : List.Forall₂ Likeness.shape.token ts ts') : ts' = ts := by
  induction h with
  | nil => rfl
  | cons ht _ ih => exact congrArg₂ List.cons ht ih

namespace Stmt

mutual

theorem Alike.symm : ∀ {s s' : Stmt}, s.Alike .shape s' → s'.Alike .shape s
  | _,_,.expression h => .expression h.symm
  | _,_,.print h => .print h.symm
  | _,_,.var ht h => .var ht.symm h.symm
  | _,_,.block h => .block h.symm
  | _,_,.branch he ha hb => .branch he.symm ha.symm hb.symm
  | _,_,.loop he h => .loop he.symm h.symm
  | _,_,.function h => .function h.symm
  | _,_,.return ht h => .return ht.symm h.symm
  | _,_,.class ht h hs => .class ht.symm h.symm hs.symm

theorem OptionAlike.symm : ∀ {s s' : Option Stmt}, OptionAlike .shape s s' → OptionAlike .shape s' s
  | _,_,.none => .none
  | _,_,.some h => .some h.symm

theorem ListAlike.symm : ∀ {ss ss' : List Stmt}, ListAlike .shape ss ss' → ListAlike .shape ss' ss
  | _,_,.nil => .nil
  | _,_,.cons h hs => .cons h.symm hs.symm

theorem FunctionAlike.symm : ∀ {d d' : FunctionDecl}, FunctionAlike .shape d d' → FunctionAlike .shape d' d
  | _,_,.mk ht hts h => .mk ht.symm (Likeness.shape_tokens_symm hts) h.symm

theorem FunctionsAlike.symm : ∀ {ds ds' : List FunctionDecl}, FunctionsAlike .shape ds ds' →
    FunctionsAlike .shape ds' ds
  | _,_,.nil => .nil
  | _,_,.cons h hs => .cons h.symm hs.symm

end

end Stmt

/-- Which identities a parse is given makes no difference to its errors, and none to its statements but for the
identities in them. -/
theorem parse_shape (ts : List Token) (ids ids' : ExprIds) :
    (parse ts ids').errors = (parse ts ids).errors ∧
      Stmt.ListAlike .shape (parse ts ids).statements (parse ts ids').statements := by
  have hts : List.Forall₂ Likeness.shape.token ts ts := List.forall₂_same.mpr fun _ _ => rfl
  have halike {ids ids' : ExprIds} (hle : ids.allocated ≤ ids'.allocated) :
      (parse ts ids).Alike .shape (ids'.allocated - ids.allocated) (parse ts ids') :=
    parse_alike hts (by omega) fun _ _ => trivial
  rcases Nat.le_total ids.allocated ids'.allocated with hle | hle
  · exact ⟨Error.Alike.all_eq (fun _ _ => id) (halike hle).errors,(halike hle).statements⟩
  · exact ⟨(Error.Alike.all_eq (fun _ _ => id) (halike hle).errors).symm,(halike hle).statements.symm⟩

end Lox

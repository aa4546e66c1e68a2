import Lox.Token.Scan

/-! What the scanner reports stands in the order of lines. -/
namespace Lox

namespace Item

def line : Item → Nat
  | token t => t.line
  | error e => e.line?.getD 0

end Item

namespace Piece

theorem item?_line {p : Piece} {here : Position} {item : Item} (h : p.item? here = some item) :
    here.line ≤ item.line ∧ item.line ≤ (here.advance p).line := by
  unfold item? at h
  split at h <;> cases h
  · exact ⟨Nat.le_add_right _ _,Nat.le_refl _⟩
  · exact ⟨Nat.le_refl _,Nat.le_add_right _ _⟩
  · exact ⟨Nat.le_refl _,Nat.le_add_right _ _⟩

end Piece

/-- The items of pieces that start at a point: none is on a line in front of it, or on one behind the
last. -/
theorem items_lines (here : Position) (ps : List Piece) :
    let items := (place here ps).filterMap fun q => q.2.item? q.1
    (∀ item ∈ items, here.line ≤ item.line ∧ item.line ≤ (ps.foldl Position.advance here).line) ∧
      here.line ≤ (ps.foldl Position.advance here).line ∧
      items.Pairwise (fun a b => a.line ≤ b.line) := by
  induction ps generalizing here with
  | nil => exact ⟨by simp [place],Nat.le_refl _,by simp [place]⟩
  | cons p ps ih =>
    obtain ⟨hbounds,hend,hsorted⟩ := ih (here.advance p)
    have hadvance : here.line ≤ (here.advance p).line := Nat.le_add_right _ _
    have hlater : ∀ item ∈ (place (here.advance p) ps).filterMap (fun q => q.2.item? q.1),
        here.line ≤ item.line ∧ item.line ≤ ((p :: ps).foldl Position.advance here).line :=
      fun item hitem => ⟨Nat.le_trans hadvance (hbounds item hitem).1,(hbounds item hitem).2⟩
    refine ⟨?_,Nat.le_trans hadvance hend,?_⟩
    · intro item hitem
      rw [place,List.filterMap_cons] at hitem
      cases hfirst : p.item? here with
      | none => exact hlater item (by simpa [hfirst] using hitem)
      | some first =>
        rw [hfirst] at hitem
        rcases List.mem_cons.mp hitem with rfl | hitem
        · exact ⟨(Piece.item?_line hfirst).1,Nat.le_trans (Piece.item?_line hfirst).2 hend⟩
        · exact hlater item hitem
    · rw [place,List.filterMap_cons]
      cases hfirst : p.item? here with
      | none => exact hsorted
      | some first =>
        exact
          .cons (fun item hitem => Nat.le_trans (Piece.item?_line hfirst).2 (hbounds item hitem).1) hsorted

theorem Scan.items_sorted (source : String) :
    (scan source).items.Pairwise (fun a b => a.line ≤ b.line) := by
  obtain ⟨hbounds,-,hsorted⟩ := items_lines .start (Piece.cut source.toList)
  refine List.pairwise_append.mpr ⟨hsorted,List.pairwise_singleton _ _,fun item hitem mark hmark => ?_⟩
  rw [List.mem_singleton.mp hmark]
  exact (hbounds item hitem).2

/-- A token is never on a line in front of one before it. -/
theorem Scan.tokens_sorted (source : String) :
    (scan source).tokens.Pairwise (fun t u => t.line ≤ u.line) := by
  refine List.Pairwise.filterMap Item.token? (fun a b hab t ht u hu => ?_) (items_sorted source)
  cases a <;> cases ht
  cases b <;> cases hu
  exact hab

theorem Scan.errors_lexical (source : String) {e : Error} (he : e ∈ (scan source).errors) :
    ∃ fault line, e = .lexical fault line := by
  simp only [errors,items,List.filterMap_append,List.mem_append,List.mem_filterMap] at he
  obtain ⟨item,⟨⟨here,p⟩,-,hitem⟩,he⟩ | ⟨mark,hmark,he⟩ := he
  · unfold Piece.item? at hitem
    split at hitem <;> cases hitem <;> cases he
    · exact ⟨_,_,rfl⟩
    · exact ⟨_,_,rfl⟩
  · rw [List.mem_singleton.mp hmark] at he
    cases he

theorem Scan.errors_sorted (source : String) :
    (scan source).errors.Pairwise (fun e f => e.line?.getD 0 ≤ f.line?.getD 0) := by
  refine List.Pairwise.filterMap Item.error? (fun a b hab e he f hf => ?_) (items_sorted source)
  cases a <;> cases he
  cases b <;> cases hf
  exact hab

end Lox

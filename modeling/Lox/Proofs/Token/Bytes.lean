import Lox.Token.Scan

/-! Texts as bytes. A byte of an ASCII character is that character, and the bytes of any other one are no ASCII
characters; so a scanner that asks for ASCII characters only sees the same in the bytes as in the characters. -/
namespace Lox

/-- The bytes of a text. -/
def utf8 (cs : List Char) : List UInt8 := cs.flatMap String.utf8EncodeChar

@[simp] theorem utf8_nil : utf8 [] = [] := rfl

theorem utf8_cons (c : Char) (cs : List Char) : utf8 (c :: cs) = String.utf8EncodeChar c ++ utf8 cs := rfl

@[simp] theorem utf8_append (cs ds : List Char) : utf8 (cs ++ ds) = utf8 cs ++ utf8 ds := List.flatMap_append

@[simp] theorem length_utf8_cons (c : Char) (cs : List Char) :
    (utf8 (c :: cs)).length = c.utf8Size + (utf8 cs).length := by
  simp [utf8_cons]

theorem toList_bytes (cs : List Char) : (String.ofList cs).toByteArray.data.toList = utf8 cs := by
  rw [String.toByteArray_ofList]
  exact List.toList_data_toByteArray

theorem length_utf8 (cs : List Char) : (utf8 cs).length = (String.ofList cs).utf8ByteSize := by
  rw [← toList_bytes]
  rfl

theorem utf8_inj {cs ds : List Char} : utf8 cs = utf8 ds ↔ cs = ds := by
  refine ⟨fun h => ?_,congrArg utf8⟩
  have harrays : cs.utf8Encode = ds.utf8Encode := congrArg List.toByteArray h
  rw [← String.toByteArray_ofList,← String.toByteArray_ofList,String.toByteArray_inj] at harrays
  exact String.ofList_injective harrays

theorem exists_utf8EncodeChar (c : Char) : ∃ b bs, String.utf8EncodeChar c = b :: bs :=
  List.exists_cons_of_length_pos (by simpa using c.utf8Size_pos)

theorem utf8EncodeChar_narrow {c : Char} (h : c.utf8Size = 1) :
    ∃ b, String.utf8EncodeChar c = [b] ∧ Char.ofUInt8 b = c := by
  refine ⟨_,String.utf8EncodeChar_eq_singleton h,Char.ext (UInt32.toNat_inj.mp ?_)⟩
  have hle : c.val.toNat ≤ 127 := Char.utf8Size_eq_one_iff.mp h
  change c.val.toUInt8.toUInt32.toNat = c.val.toNat
  rw [UInt8.toNat_toUInt32,UInt32.toNat_toUInt8]
  omega

theorem wide_of_le {b : UInt8} (h : 128 ≤ b.toNat) : (Char.ofUInt8 b).utf8Size ≠ 1 := by
  intro hone
  have hle : b.toUInt32.toNat ≤ 127 := Char.utf8Size_eq_one_iff.mp hone
  rw [UInt8.toNat_toUInt32] at hle
  omega

theorem utf8EncodeChar_wide {c : Char} (h : c.utf8Size ≠ 1) :
    ∀ b ∈ String.utf8EncodeChar c, (Char.ofUInt8 b).utf8Size ≠ 1 := by
  have hor (x : UInt8) {y : UInt8} (hy : 128 ≤ y.toNat) : (Char.ofUInt8 (x ||| y)).utf8Size ≠ 1 :=
    wide_of_le (by
      rw [UInt8.toNat_or]
      exact Nat.le_trans hy Nat.right_le_or)
  rcases Char.utf8Size_eq c with hone | htwo | hthree | hfour
  · exact absurd hone h
  · rw [String.utf8EncodeChar_eq_cons_cons htwo]
    simp [hor]
  · rw [String.utf8EncodeChar_eq_cons_cons_cons hthree]
    simp [hor]
  · rw [String.utf8EncodeChar_eq_cons_cons_cons_cons hfour]
    simp [hor]

/-- A question that has one answer for all characters beyond ASCII. -/
def Coarse {α : Type} (ask : Char → α) : Prop := ∀ ⦃c d⦄, c.utf8Size ≠ 1 → d.utf8Size ≠ 1 → ask c = ask d

namespace Coarse

variable {α : Type} {ask : Char → α} {p : Char → Bool}

theorem of_forall {a : α} (h : ∀ c, c.utf8Size ≠ 1 → ask c = a) : Coarse ask :=
  fun c d hc hd => (h c hc).trans (h d hd).symm

/-- It is answered by each byte as by the whole character. -/
theorem letter (h : Coarse ask) {c : Char} {b : UInt8} (hb : b ∈ String.utf8EncodeChar c) :
    ask (Char.ofUInt8 b) = ask c := by
  by_cases hc : c.utf8Size = 1
  · obtain ⟨d,hd,hletter⟩ := utf8EncodeChar_narrow hc
    rw [hd,List.mem_singleton] at hb
    rw [hb,hletter]
  · exact h (utf8EncodeChar_wide hc b hb) hc

theorem takeWhile (h : Coarse p) (cs : List Char) :
    (utf8 cs).takeWhile (fun b => p (Char.ofUInt8 b)) = utf8 (cs.takeWhile p) := by
  induction cs with
  | nil => rfl
  | cons c cs ih =>
    rw [utf8_cons]
    cases hc : p c with
    | true =>
      rw [List.takeWhile_append_of_pos (fun b hb => (h.letter hb).trans hc),ih,
        List.takeWhile_cons_of_pos hc,utf8_cons]
    | false =>
      rw [List.takeWhile_cons_of_neg (by simp [hc])]
      obtain ⟨b,bs,hbytes⟩ := exists_utf8EncodeChar c
      have hb : p (Char.ofUInt8 b) = false := (h.letter (hbytes ▸ List.mem_cons_self)).trans hc
      rw [hbytes,List.cons_append,List.takeWhile_cons_of_neg (by simp [hb]),utf8_nil]

/-- The bytes of a narrow character that is looked for are as many as the character itself. -/
theorem countP (h : Coarse p) (hp : ∀ c, p c → c.utf8Size = 1) (cs : List Char) :
    (utf8 cs).countP (fun b => p (Char.ofUInt8 b)) = cs.countP p := by
  induction cs with
  | nil => rfl
  | cons c cs ih =>
    rw [utf8_cons,List.countP_append,ih,Nat.add_comm]
    cases hc : p c with
    | true =>
      obtain ⟨b,hb,hletter⟩ := utf8EncodeChar_narrow (hp c hc)
      simp [hb,hletter,hc]
    | false =>
      have hnone : (String.utf8EncodeChar c).countP (fun b => p (Char.ofUInt8 b)) = 0 :=
        List.countP_eq_zero.mpr fun b hb => by simp [(h.letter hb).trans hc]
      simp [hnone,hc]

theorem beq {a : Char} (ha : a.utf8Size = 1) : Coarse (· == a) :=
  .of_forall (a := false) fun _ hc => beq_false_of_ne fun h => hc (h ▸ ha)

theorem ne {a : Char} (ha : a.utf8Size = 1) : Coarse fun c => decide (c ≠ a) :=
  .of_forall (a := true) fun _ hc => decide_eq_true fun h => hc (h ▸ ha)

/-- The first place of a byte lies behind the characters before it. -/
theorem findIdx? {a : Char} (ha : a.utf8Size = 1) (cs : List Char) :
    ((utf8 cs).findIdx? fun b => Char.ofUInt8 b = a).getD (utf8 cs).length =
      (utf8 (cs.takeWhile (· ≠ a))).length := by
  rw [← takeWhile (ne ha),← List.findIdx_eq_getD_findIdx?,List.takeWhile_eq_take_findIdx_not,List.length_take]
  simp only [decide_not,Bool.not_not]
  exact (Nat.min_eq_left List.findIdx_le_length).symm

theorem punctuator? : Coarse Piece.punctuator? :=
  .of_forall (a := none) fun c hc => by
    unfold Piece.punctuator?
    split
    all_goals first | rfl | exact absurd rfl hc

theorem operator? : Coarse Piece.operator? :=
  .of_forall (a := none) fun c hc => by
    unfold Piece.operator?
    split
    all_goals first | rfl | exact absurd rfl hc

end Coarse

theorem lt_of_wide {c : Char} (h : c.utf8Size ≠ 1) : 127 < c.val :=
  UInt32.not_le.mp fun hle => h (Char.utf8Size_eq_one_iff.mpr hle)

namespace Coarse

theorem isDigit : Coarse Char.isDigit :=
  .of_forall (a := false) fun c hc => by
    have hlt := lt_of_wide hc
    simp only [Char.isDigit]
    grind

theorem isAlpha : Coarse Char.isAlpha :=
  .of_forall (a := false) fun c hc => by
    have hlt := lt_of_wide hc
    delta Char.isAlpha Char.isUpper Char.isLower
    grind

theorem or {p q : Char → Bool} (h : Coarse p) (h' : Coarse q) : Coarse fun c => p c || q c :=
  fun c d hc hd => by
    dsimp only
    rw [h hc hd,h' hc hd]

theorem isBlank : Coarse Piece.isBlank :=
  (((beq rfl).or (beq rfl)).or (beq rfl)).or (beq rfl)

theorem isNameStart : Coarse Piece.isNameStart := isAlpha.or (beq rfl)

theorem isNameRest : Coarse Piece.isNameRest := (isAlpha.or isDigit).or (beq rfl)

end Coarse
end Lox

import Lox.Proofs.Token.Bytes
import Lox.Proofs.Token.First
import Lox.Token.Cursor

/-! What the cursor does to a text, told in characters. -/
namespace Lox
namespace Cursor

/-! ### Bytes -/

/-- The bytes that are left. -/
def ahead (c : Cursor) : List UInt8 := c.source.toByteArray.data.toList.drop c.current

def forward (c : Cursor) (n : Nat) : Cursor := { c with current := c.current + n }

variable {c : Cursor} {b : UInt8} {bs : List UInt8}

theorem ahead_forward (n : Nat) : (c.forward n).ahead = c.ahead.drop n := by
  simp only [ahead,forward,List.drop_drop]

theorem forward_forward (m n : Nat) : (c.forward m).forward n = c.forward (m + n) := by
  simp only [forward,Nat.add_assoc]

theorem size_eq : c.size = c.source.toByteArray.data.toList.length := rfl

theorem letterAt_eq (n : Nat) : c.letterAt (c.current + n) = (c.ahead[n]?.map Char.ofUInt8).getD '\x00' := by
  rw [ahead,List.getElem?_drop]
  unfold letterAt
  split
  next h =>
    rw [List.getElem?_eq_getElem h]
    rfl
  next h =>
    rw [List.getElem?_eq_none (Nat.le_of_not_lt h)]
    rfl

theorem peek_eq : c.peek = (c.ahead.head?.map Char.ofUInt8).getD '\x00' :=
  (letterAt_eq 0).trans (by rw [List.head?_eq_getElem?])

theorem atEnd_eq : c.atEnd = c.ahead.isEmpty := by
  rw [Bool.eq_iff_iff,List.isEmpty_iff,ahead,List.drop_eq_nil_iff,atEnd,decide_eq_true_eq,size_eq]

theorem advance_cons (h : c.ahead = b :: bs) : advance c = .ok (Char.ofUInt8 b) (c.forward 1) := by
  have hb : c.source.toByteArray.data.toList[c.current]? = some b := by
    rw [← Nat.add_zero c.current,← List.getElem?_drop]
    exact congrArg (·[0]?) h
  obtain ⟨hlt,hget⟩ := List.getElem?_eq_some_iff.mp hb
  exact (dif_pos hlt).trans (congrArg (EStateM.Result.ok · (c.forward 1)) (congrArg Char.ofUInt8 hget))

/-- A loop over bytes that stops at the end of the text at the latest. -/
theorem skipWhile_eq {p : Char → Bool} (hp : p '\x00' = false) (c : Cursor) :
    skipWhile p c = .ok () (c.forward (c.ahead.takeWhile fun b => p (Char.ofUInt8 b)).length) := by
  fun_induction skipWhile p c with
  | case1 c hpeek letter c₁ hadvance ih =>
    cases hahead : c.ahead with
    | nil => simp [peek_eq,hahead,hp] at hpeek
    | cons b bs =>
      rw [advance_cons hahead] at hadvance
      cases hadvance
      have hb : p (Char.ofUInt8 b) = true := by simpa [peek_eq,hahead] using hpeek
      rw [ih,ahead_forward,hahead,forward_forward,Nat.add_comm]
      simp [hb]
  | case2 c hpeek fault c₁ hadvance =>
    cases hahead : c.ahead with
    | nil => simp [peek_eq,hahead,hp] at hpeek
    | cons b bs => cases (advance_cons hahead).symm.trans hadvance
  | case3 c hpeek =>
    cases hahead : c.ahead with
    | nil => rfl
    | cons b bs =>
      have hb : p (Char.ofUInt8 b) = false := by simpa [peek_eq,hahead] using hpeek
      rw [List.takeWhile_cons_of_neg (by simp [hb])]
      rfl

/-- Behind some bytes, with the newlines among them counted. -/
def passing (c : Cursor) (bytes : List UInt8) : Cursor :=
  { c with current := c.current + bytes.length, line := c.line + bytes.countP (Char.ofUInt8 · == '\n') }

theorem passing_cons : ((c.forward 1).count (Char.ofUInt8 b)).passing bs = c.passing (b :: bs) := by
  cases hb : Char.ofUInt8 b == '\n' <;> simp [passing,count,forward,hb,Nat.add_assoc,Nat.add_comm 1]

/-- The loop over the contents of a string. -/
theorem skipContents_eq (c : Cursor) :
    skipContents c = .ok () (c.passing (c.ahead.takeWhile fun b => Char.ofUInt8 b ≠ '"')) := by
  fun_induction skipContents c with
  | case1 c hpeek letter c₁ hadvance ih =>
    cases hahead : c.ahead with
    | nil => simp [atEnd_eq,hahead] at hpeek
    | cons b bs =>
      rw [advance_cons hahead] at hadvance
      cases hadvance
      have hb : Char.ofUInt8 b ≠ '"' := by simpa [atEnd_eq,peek_eq,hahead] using hpeek
      have hcount : ((c.forward 1).count (Char.ofUInt8 b)).ahead = bs := by
        change (c.forward 1).ahead = bs
        rw [ahead_forward,hahead,List.drop_one,List.tail_cons]
      rw [ih,hcount,passing_cons]
      simp [hb]
  | case2 c hpeek fault c₁ hadvance =>
    cases hahead : c.ahead with
    | nil => simp [atEnd_eq,hahead] at hpeek
    | cons b bs => cases (advance_cons hahead).symm.trans hadvance
  | case3 c hpeek =>
    cases hahead : c.ahead with
    | nil => rfl
    | cons b bs =>
      have hb : Char.ofUInt8 b = '"' := by simpa [atEnd_eq,peek_eq,hahead] using hpeek
      rw [List.takeWhile_cons_of_neg (by simp [hb])]
      rfl

/-! ### Characters -/

/-- A cursor in front of some characters of a text, with a lexeme behind it that others precede. -/
def spanning (passed lexeme rest : List Char) (line : Nat) : Cursor :=
  ⟨String.ofList (passed ++ lexeme ++ rest),(utf8 passed).length,(utf8 (passed ++ lexeme)).length,line⟩

variable {passed lexeme rest : List Char} {line : Nat} {p : Char → Bool}

theorem ahead_spanning : (spanning passed lexeme rest line).ahead = utf8 rest := by
  simp only [ahead,spanning,toList_bytes,utf8_append,List.drop_left']

theorem forward_spanning (more : List Char) :
    (spanning passed lexeme (more ++ rest) line).forward (utf8 more).length =
      spanning passed (lexeme ++ more) rest line := by
  simp [spanning,forward,Nat.add_assoc]

theorem advance_spanning {a : Char} (ha : a.utf8Size = 1) :
    advance (spanning passed lexeme (a :: rest) line) = .ok a (spanning passed (lexeme ++ [a]) rest line) := by
  obtain ⟨b,hb,hletter⟩ := utf8EncodeChar_narrow ha
  have hahead : (spanning passed lexeme (a :: rest) line).ahead = b :: utf8 rest := by
    rw [ahead_spanning,utf8_cons,hb]
    rfl
  rw [advance_cons hahead,hletter,← forward_spanning]
  simp [utf8_cons,hb]

theorem skipWhile_spanning (hp : p '\x00' = false) (hcoarse : Coarse p) :
    skipWhile p (spanning passed lexeme rest line) =
      .ok () (spanning passed (lexeme ++ rest.takeWhile p) (rest.dropWhile p) line) := by
  rw [skipWhile_eq hp,ahead_spanning,hcoarse.takeWhile,← forward_spanning,List.takeWhile_append_dropWhile]

variable {a b d : List Char} {c : Cursor}

theorem size_of_source (h : c.source = String.ofList (a ++ b ++ d)) :
    (utf8 a).length ≤ (utf8 (a ++ b)).length ∧ (utf8 (a ++ b)).length ≤ c.size := by
  rw [size_eq,h,toList_bytes]
  simp

theorem extract_of_source (h : c.source = String.ofList (a ++ b ++ d)) :
    (c.source.toByteArray.extract (utf8 a).length (utf8 (a ++ b)).length).data.toList = utf8 b := by
  rw [ByteArray.data_extract,Array.toList_extract,h,toList_bytes]
  simp

/-- The bytes of a part of the text. -/
theorem bytes_of_source (h : c.source = String.ofList (a ++ b ++ d)) :
    bytes (utf8 a).length (utf8 (a ++ b)).length c = .ok (utf8 b) c := by
  unfold bytes
  rw [if_pos (size_of_source h),extract_of_source h]

/-- The characters of a part of the text: it begins and ends between two of them. -/
theorem slice_of_source (h : c.source = String.ofList (a ++ b ++ d)) :
    slice (utf8 a).length (utf8 (a ++ b)).length c = .ok (String.ofList b) c := by
  have hbetween (front back : List Char) (hf : a ++ b ++ d = front ++ back) :
      String.Pos.Raw.IsValid c.source ⟨(utf8 front).length⟩ := by
    rw [h,hf,String.Pos.Raw.isValid_ofList]
    exact ⟨front.length,by rw [List.take_left' rfl,length_utf8]⟩
  have hfirst := hbetween a (b ++ d) (List.append_assoc ..)
  have hbehind := hbetween (a ++ b) d rfl
  unfold slice
  rw [if_pos (size_of_source h),dif_pos hfirst,dif_pos hbehind]
  refine congrArg (EStateM.Result.ok · c) (String.toByteArray_inj.mp ?_)
  rw [String.toByteArray_extract]
  exact ByteArray.ext (Array.toList_inj.mp ((extract_of_source h).trans (toList_bytes b).symm))

/-! ### Lexemes -/

theorem ask_head {α : Type} {ask : Char → α} (h : Coarse ask) (cs : List Char) :
    ask (((utf8 cs).head?.map Char.ofUInt8).getD '\x00') = ask (cs.headD '\x00') := by
  cases cs with
  | nil => rfl
  | cons c cs =>
    obtain ⟨b,bs,hbytes⟩ := exists_utf8EncodeChar c
    rw [utf8_cons,hbytes]
    exact h.letter (hbytes ▸ List.mem_cons_self)

theorem peek_spanning (hp : Coarse p) : p (spanning passed lexeme rest line).peek = p (rest.headD '\x00') := by
  rw [peek_eq,ahead_spanning,ask_head hp]

theorem peekNext_spanning {a : Char} (ha : a.utf8Size = 1) (hp : Coarse p) :
    p (spanning passed lexeme (a :: rest) line).peekNext = p (rest.headD '\x00') := by
  obtain ⟨b,hb,-⟩ := utf8EncodeChar_narrow ha
  rw [peekNext,letterAt_eq,ahead_spanning,utf8_cons,hb,← ask_head hp,List.head?_eq_getElem?]
  rfl

theorem atEnd_spanning : (spanning passed lexeme rest line).atEnd = rest.isEmpty := by
  rw [atEnd_eq,ahead_spanning]
  cases rest with
  | nil => rfl
  | cons c cs =>
    obtain ⟨b,bs,hbytes⟩ := exists_utf8EncodeChar c
    rw [utf8_cons,hbytes]
    rfl

theorem bind_of_ok {α β : Type} {act : Scanning α} {f : α → Scanning β} {c c' : Cursor} {a : α}
    (h : act c = .ok a c') : (act >>= f) c = f a c' := by
  simp only [Bind.bind,EStateM.bind,h]

theorem matchLetter_found {a : Char} (ha : a.utf8Size = 1) :
    matchLetter a (spanning passed lexeme (a :: rest) line) = .ok true (spanning passed (lexeme ++ [a]) rest line) := by
  have hpeek : (spanning passed lexeme (a :: rest) line).peek == a := by
    rw [peek_spanning (.beq ha)]
    exact beq_self_eq_true a
  unfold matchLetter
  rw [get_bind,atEnd_spanning,hpeek]
  exact bind_of_ok (advance_spanning ha)

theorem matchLetter_other {a : Char} (ha : a.utf8Size = 1) (h : rest.head? ≠ some a) :
    matchLetter a (spanning passed lexeme rest line) = .ok false (spanning passed lexeme rest line) := by
  unfold matchLetter
  rw [get_bind,atEnd_spanning,peek_spanning (.beq ha)]
  cases rest with
  | nil => rfl
  | cons c cs =>
    have hc : (c == a) = false := beq_false_of_ne fun hc => h (congrArg some hc)
    simp [hc]
    rfl

theorem bytes_spanning :
    let c := spanning passed lexeme rest line
    bytes c.start c.current c = .ok (utf8 lexeme) c :=
  bytes_of_source rfl

theorem slice_spanning :
    let c := spanning passed lexeme rest line
    slice c.start c.current c = .ok (String.ofList lexeme) c :=
  slice_of_source rfl

/-! What each kind of lexeme comes to. -/

theorem beq_utf8 (w : String) (lexeme : List Char) :
    (w.toByteArray.data.toList == utf8 lexeme) = (w == String.ofList lexeme) := by
  rw [Bool.eq_iff_iff,beq_iff_eq,beq_iff_eq,← String.ofList_toList (s := w),toList_bytes,utf8_inj,String.ofList_inj]

/-- Reserved words are told by their bytes as by their letters. -/
theorem keyword_utf8 (lexeme : List Char) : keyword (utf8 lexeme) = Kind.ofWord (String.ofList lexeme) := by
  unfold keyword Kind.ofWord
  congr 1
  induction Kind.keywords with
  | nil => rfl
  | cons entry entries ih =>
    obtain ⟨w,kind⟩ := entry
    rw [List.find?_cons,List.lookup_cons,beq_utf8,BEq.comm]
    cases String.ofList lexeme == w with
    | true => rfl
    | false => exact ih

theorem parseIdentifier_spanning {d : Char} :
    parseIdentifier (spanning passed [d] rest line) =
      .ok (Kind.ofWord (String.ofList (d :: rest.takeWhile Piece.isNameRest)))
        (spanning passed (d :: rest.takeWhile Piece.isNameRest) (rest.dropWhile Piece.isNameRest) line) := by
  refine (bind_of_ok (skipWhile_spanning rfl .isNameRest)).trans ?_
  refine (bind_of_ok bytes_spanning).trans ?_
  exact congrArg (EStateM.Result.ok · _) (keyword_utf8 _)

theorem parseNumber_spanning {d : Char} (hd : d.isDigit) :
    let number := Piece.spanNumber (d :: rest)
    parseNumber (spanning passed [d] rest line) =
      .ok (.number (Piece.numberValue number.1)) (spanning passed number.1 number.2 line) := by
  have hslice (lexeme rest : List Char) : (do
      let c ← get
      return Kind.number (Piece.numberValue (← slice c.start c.current).toList) : Scanning Kind)
        (spanning passed lexeme rest line) =
      .ok (.number (Piece.numberValue lexeme)) (spanning passed lexeme rest line) := by
    rw [get_bind]
    refine (bind_of_ok slice_spanning).trans ?_
    rw [String.toList_ofList]
    rfl
  refine (bind_of_ok (skipWhile_spanning rfl .isDigit)).trans ?_
  rw [get_bind,peek_spanning (.beq rfl)]
  unfold Piece.spanNumber
  rw [List.dropWhile_cons_of_pos hd,List.takeWhile_cons_of_pos hd]
  cases htail : rest.dropWhile Char.isDigit with
  | nil => exact hslice _ _
  | cons a tail =>
    by_cases ha : a = '.'
    · subst ha
      rw [peekNext_spanning rfl .isDigit]
      cases tail with
      | nil => exact hslice _ _
      | cons e tail =>
        cases he : e.isDigit with
        | false => simpa [he] using hslice _ _
        | true =>
          simp only [List.headD_cons,he,beq_self_eq_true,Bool.and_self,if_true]
          refine (bind_of_ok (advance_spanning rfl)).trans ?_
          refine (bind_of_ok (skipWhile_spanning rfl .isDigit)).trans ?_
          rw [List.append_assoc]
          exact hslice _ _
    · have hdot : (a == '.') = false := beq_false_of_ne ha
      simpa [hdot,ha] using hslice _ _

theorem passing_spanning (more : List Char) :
    (spanning passed lexeme (more ++ rest) line).passing (utf8 more) =
      spanning passed (lexeme ++ more) rest (line + more.count '\n') := by
  have hnewline : ∀ c : Char, (c == '\n') = true → c.utf8Size = 1 := fun c hc => beq_iff_eq.mp hc ▸ rfl
  rw [passing,Coarse.countP (.beq rfl) hnewline]
  simp [spanning,List.count,Nat.add_assoc]

theorem skipContents_spanning :
    let contents := rest.takeWhile (· ≠ '"')
    skipContents (spanning passed lexeme rest line) =
      .ok () (spanning passed (lexeme ++ contents) (rest.dropWhile (· ≠ '"')) (line + contents.count '\n')) := by
  dsimp only
  rw [skipContents_eq,ahead_spanning,Coarse.takeWhile (.ne rfl),← passing_spanning,
    List.takeWhile_append_dropWhile]

theorem parseString_unclosed (h : '"' ∉ rest) :
    parseString (spanning passed ['"'] rest line) =
      .ok (.error (.lexical .unterminatedString line))
        (spanning passed ('"' :: rest) [] (line + ('"' :: rest).count '\n')) := by
  obtain ⟨htake,hdrop⟩ := Piece.span_no_quote h
  unfold parseString
  rw [get_bind]
  refine (bind_of_ok skipContents_spanning).trans ?_
  rw [get_bind,atEnd_spanning,htake,hdrop,List.count_cons_of_ne (by decide)]
  rfl

theorem parseString_closed {contents : List Char} (h : '"' ∉ contents) :
    parseString (spanning passed ['"'] (contents ++ '"' :: rest) line) =
      .ok (.ok (some (.string (String.ofList contents))))
        (spanning passed ('"' :: (contents ++ ['"'])) rest (line + ('"' :: (contents ++ ['"'])).count '\n')) := by
  obtain ⟨htake,hdrop⟩ := Piece.span_quote h rest
  have hcount : ('"' :: (contents ++ ['"'])).count '\n' = contents.count '\n' := by simp
  unfold parseString
  rw [get_bind,hcount]
  refine (bind_of_ok skipContents_spanning).trans ?_
  rw [get_bind,atEnd_spanning,htake,hdrop]
  refine (bind_of_ok (advance_spanning rfl)).trans ?_
  rw [get_bind]
  generalize hclosed : spanning passed _ rest _ = closed
  -- the contents lie between the two quotes
  have hsource : closed.source = String.ofList (passed ++ ['"'] ++ contents ++ ('"' :: rest)) := by
    simp [← hclosed,spanning]
  have hfirst : closed.start + 1 = (utf8 (passed ++ ['"'])).length := by
    simp [← hclosed,spanning,show '"'.utf8Size = 1 from rfl]
  have hbehind : closed.current - 1 = (utf8 (passed ++ ['"'] ++ contents)).length := by
    simp [← hclosed,spanning,show '"'.utf8Size = 1 from rfl,← Nat.add_assoc]
  rw [hfirst,hbehind]
  refine (bind_of_ok (slice_of_source hsource)).trans ?_
  rw [← hclosed]
  rfl

theorem skipComment_spanning :
    skipComment (spanning passed lexeme rest line) =
      .ok () (spanning passed (lexeme ++ rest.takeWhile (· ≠ '\n')) (rest.dropWhile (· ≠ '\n')) line) := by
  let c := spanning passed lexeme rest line
  have hsize : c.size = c.current + (utf8 rest).length := by
    rw [size_eq]
    simp only [c,spanning,toList_bytes,utf8_append,List.length_append]
  have hbytes : bytes c.current c.size c = .ok (utf8 rest) c := by
    rw [hsize,show c.current + (utf8 rest).length = (utf8 (passed ++ lexeme ++ rest)).length by
      simp [c,spanning,Nat.add_assoc]]
    exact bytes_of_source (d := []) (by simp [c,spanning])
  have hplace : ((utf8 rest).findIdx? fun b => Char.ofUInt8 b = '\n').elim c.size (c.current + ·) =
      c.current + (utf8 (rest.takeWhile (· ≠ '\n'))).length := by
    rw [← Coarse.findIdx? rfl,hsize]
    cases (utf8 rest).findIdx? fun b => Char.ofUInt8 b = '\n' <;> rfl
  unfold skipComment
  rw [get_bind]
  refine (bind_of_ok hbytes).trans ?_
  rw [hplace,← forward_spanning,List.takeWhile_append_dropWhile]
  rfl

theorem skipStray_eq {ch : Char} {c : Cursor} (h : c.source = String.ofList (passed ++ [ch] ++ rest))
    (hstart : c.start = (utf8 passed).length) :
    skipStray c = .ok (.error (.lexical (.unexpected ch) c.line)) (spanning passed [ch] rest c.line) := by
  have hsource : c.source = String.ofList (passed ++ (ch :: rest) ++ []) := by simpa using h
  have hsize : c.size = (utf8 (passed ++ (ch :: rest))).length := by
    rw [size_eq,hsource,toList_bytes,List.append_nil]
  unfold skipStray
  rw [get_bind,hstart,hsize]
  refine (bind_of_ok (slice_of_source hsource)).trans ?_
  obtain ⟨source,start,current,line⟩ := c
  obtain rfl : source = _ := h
  rw [String.toList_ofList]
  have : (utf8 (passed ++ [ch])).length = (utf8 passed).length + ch.utf8Size := by simp [utf8_cons]
  rw [spanning,this]
  subst hstart
  rfl

end Cursor

namespace Piece

/-- What a piece is found to be on a line. -/
def finding (p : Piece) (line : Nat) : Cursor.Finding :=
  match p.shape with
  | .token kind => .ok (some kind)
  | .blank | .comment => .ok none
  | .stray c => .error (.lexical (.unexpected c) line)
  | .unclosed => .error (.lexical .unterminatedString line)

end Piece

namespace Cursor

variable {passed rest others : List Char} {line : Nat} {letter : Char} {piece : Piece}

theorem scanFrom_plain (h : Piece.Plain letter) : scanFrom letter =
    if letter.isDigit then return .ok (some (← parseNumber))
    else if Piece.isNameStart letter then return .ok (some (← parseIdentifier))
    else skipStray := by
  unfold scanFrom
  rw [if_neg h.ne_newline,if_neg (by simp [h.blank]),if_neg h.slash,if_neg h.quote]
  simp only [h.punctuator,h.operator]

theorem scanFrom_punctuator {kind : Kind} (h : Piece.punctuator? letter = some kind) :
    scanFrom letter = pure (.ok (some kind)) ∧ letter ≠ '\n' := by
  unfold Piece.punctuator? at h
  split at h <;> cases h <;> exact ⟨rfl,by decide⟩

theorem scanFrom_operator {short long : Kind} (h : Piece.operator? letter = some (short,long)) :
    scanFrom letter = (do return .ok (some (← either '=' long short))) ∧ letter ≠ '\n' := by
  unfold Piece.operator? at h
  split at h <;> cases h <;> exact ⟨rfl,by decide⟩

theorem scanFrom_token {kind : Kind} {text : List Char} (h : Piece.Leads letter rest kind text others) :
    scanFrom letter (spanning passed [letter] rest line) =
      .ok (.ok (some kind)) (spanning passed text others (line + text.count '\n')) := by
  have hline {text : List Char} (htext : '\n' ∉ text) : line + text.count '\n' = line := by
    rw [List.count_eq_zero.mpr htext,Nat.add_zero]
  cases h with
  | punctuator h =>
    obtain ⟨hscan,hnewline⟩ := scanFrom_punctuator h
    rw [hscan,hline (by simpa using hnewline.symm)]
    rfl
  | long h hcs =>
    obtain ⟨hscan,hnewline⟩ := scanFrom_operator h
    rw [hscan,hcs,hline (by simpa using hnewline.symm)]
    exact bind_of_ok (bind_of_ok (matchLetter_found rfl))
  | short h hcs =>
    obtain ⟨hscan,hnewline⟩ := scanFrom_operator h
    rw [hscan,hline (by simpa using hnewline.symm)]
    exact bind_of_ok (bind_of_ok (matchLetter_other rfl hcs))
  | slash h hcs =>
    subst h
    rw [hline (by simp)]
    exact bind_of_ok (matchLetter_other rfl hcs)
  | string h hcs hquote =>
    subst h hcs
    exact parseString_closed hquote
  | number h hdigit =>
    have hdigits : '\n' ∉ (Piece.spanNumber (letter :: rest)).1 :=
      fun hmem => absurd (Piece.mem_spanNumber hmem) (by decide)
    rw [scanFrom_plain h,if_pos hdigit,hline hdigits]
    exact bind_of_ok (parseNumber_spanning hdigit)
  | word h hdigit hname =>
    have hletters : '\n' ∉ letter :: rest.takeWhile Piece.isNameRest := fun hmem =>
      (List.mem_cons.mp hmem).elim (fun heq => h.ne_newline heq.symm)
        fun hmem => absurd (List.mem_takeWhile_imp hmem) (by decide)
    rw [scanFrom_plain h,if_neg (by simp [hdigit]),if_pos hname,hline hletters]
    exact bind_of_ok parseIdentifier_spanning

/-- Behind the first character of an ASCII lexeme the cursor goes over the rest of it. -/
theorem scanFrom_spanning (h : Piece.First letter rest piece others) :
    scanFrom letter (spanning passed [letter] rest line) =
      .ok (piece.finding line) (spanning passed piece.text others (line + piece.newlines)) := by
  cases h with
  | token h => exact scanFrom_token h
  | blank h =>
    simp only [Piece.isBlank_iff,List.mem_cons,List.not_mem_nil,or_false] at h
    rcases h with rfl | rfl | rfl | rfl <;> rfl
  | comment h hcs =>
    subst h hcs
    rw [Piece.newlines_eq_zero (by simpa using (Piece.split_newline _).1)]
    refine (bind_of_ok (matchLetter_found rfl)).trans ?_
    exact bind_of_ok skipComment_spanning
  | unclosed h hcs =>
    subst h
    exact parseString_unclosed hcs
  | stray h hdigit hname =>
    rw [scanFrom_plain h,if_neg (by simp [hdigit]),if_neg (by simp [hname]),
      Piece.newlines_eq_zero (by simpa using h.ne_newline.symm)]
    exact skipStray_eq rfl rfl

/-- No lexeme begins with a character beyond ASCII. -/
theorem plain_of_wide {c : Char} (hc : c.utf8Size ≠ 1) :
    Piece.Plain c ∧ c.isDigit = false ∧ Piece.isNameStart c = false := by
  have hwide : 'é'.utf8Size ≠ 1 := by decide
  exact ⟨⟨Coarse.isBlank hc hwide,Coarse.punctuator? hc hwide,Coarse.operator? hc hwide,
    fun h => hc (h ▸ rfl),fun h => hc (h ▸ rfl)⟩,Coarse.isDigit hc hwide,Coarse.isNameStart hc hwide⟩

/-- The piece under the cursor, whichever character it begins with. -/
theorem scanToken_spanning (c : Char) (cs : List Char) :
    scanToken (spanning passed [] (c :: cs) line) = .ok ((Piece.first c cs).1.finding line)
      (spanning passed (Piece.first c cs).1.text (Piece.first c cs).2 (line + (Piece.first c cs).1.newlines)) := by
  by_cases hc : c.utf8Size = 1
  · exact (bind_of_ok (advance_spanning hc)).trans (scanFrom_spanning (Piece.first_cases c cs))
  · obtain ⟨b,bs,hbytes⟩ := exists_utf8EncodeChar c
    have hahead : (spanning passed [] (c :: cs) line).ahead = b :: (bs ++ utf8 cs) := by
      rw [ahead_spanning,utf8_cons,hbytes,List.cons_append]
    have hletter := utf8EncodeChar_wide hc b (hbytes ▸ List.mem_cons_self)
    obtain ⟨hplain,hdigit,hname⟩ := plain_of_wide hletter
    obtain ⟨hplain',hdigit',hname'⟩ := plain_of_wide hc
    refine (bind_of_ok (advance_cons hahead)).trans ?_
    rw [scanFrom_plain hplain,if_neg (by simp [hdigit]),if_neg (by simp [hname]),
      (Piece.First.stray hplain' hdigit' hname').eq]
    have hsource : ((spanning passed [] (c :: cs) line).forward 1).source = String.ofList (passed ++ [c] ++ cs) := by
      simp [forward,spanning]
    refine (skipStray_eq hsource rfl).trans ?_
    rw [Piece.newlines_eq_zero (by simpa using hplain'.ne_newline.symm)]
    rfl

/-- The item of the piece under the cursor, where it has one. -/
theorem turn_spanning (c : Char) (cs : List Char) {cursor : Cursor}
    (hsource : cursor.source = String.ofList (passed ++ c :: cs)) (hcurrent : cursor.current = (utf8 passed).length) :
    turn cursor = .ok ((Piece.first c cs).1.item? ⟨cursor.line,cursor.current⟩)
      (spanning passed (Piece.first c cs).1.text (Piece.first c cs).2
        (cursor.line + (Piece.first c cs).1.newlines)) := by
  have hcursor : { cursor with start := cursor.current } = spanning passed [] (c :: cs) cursor.line := by
    simp only [spanning,hsource,hcurrent,List.append_nil]
  change (scanToken >>= answer) { cursor with start := cursor.current } = _
  rw [hcursor]
  refine (bind_of_ok (scanToken_spanning c cs)).trans ?_
  generalize (Piece.first c cs).1 = piece
  obtain ⟨shape,text⟩ := piece
  cases shape with
  | token kind => exact bind_of_ok slice_spanning
  | blank => rfl
  | comment => rfl
  | stray => rfl
  | unclosed => rfl

end Cursor
end Lox

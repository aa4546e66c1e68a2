import Lox.Token.Scan

/-! The scanner as a stream: a cursor moves over the bytes of a text and answers one item at a time. An access to the
text is checked: a byte has to be in it, and a slice has to begin and end between two characters. -/
namespace Lox

inductive AccessFault
  | outside (byte : Nat)
  | insideCharacter (byte : Nat)
deriving DecidableEq

/-- A text with the first byte of the current lexeme, the byte behind the last one taken, and its line. -/
structure Cursor where
  source : String
  start : Nat
  current : Nat
  line : Nat

abbrev Scanning := EStateM AccessFault Cursor

namespace Cursor

def new (source : String) : Cursor := ⟨source,0,0,1⟩

def size (c : Cursor) : Nat := c.source.utf8ByteSize

def atEnd (c : Cursor) : Bool := c.size ≤ c.current

/-- A byte, as the character with that number; NUL where the text has none. -/
def letterAt (c : Cursor) (i : Nat) : Char :=
  if h : i < c.source.toByteArray.size then Char.ofUInt8 c.source.toByteArray[i] else '\x00'

def peek (c : Cursor) : Char := c.letterAt c.current

def peekNext (c : Cursor) : Char := c.letterAt (c.current + 1)

/-! ### Access -/

/-- Takes the current byte. -/
def advance : Scanning Char := fun c =>
  if h : c.current < c.source.toByteArray.size then
    .ok (Char.ofUInt8 c.source.toByteArray[c.current]) { c with current := c.current + 1 }
  else .error (.outside c.current) c

def bytes (first behind : Nat) : Scanning (List UInt8) := fun c =>
  if first ≤ behind ∧ behind ≤ c.size then
    .ok (c.source.toByteArray.extract first behind).data.toList c
  else .error (.outside behind) c

def slice (first behind : Nat) : Scanning String := fun c =>
  if first ≤ behind ∧ behind ≤ c.size then
    if hfirst : String.Pos.Raw.IsValid c.source ⟨first⟩ then
      if hbehind : String.Pos.Raw.IsValid c.source ⟨behind⟩ then
        .ok (c.source.extract ⟨⟨first⟩,hfirst⟩ ⟨⟨behind⟩,hbehind⟩) c
      else .error (.insideCharacter behind) c
    else .error (.insideCharacter first) c
  else .error (.outside behind) c

theorem get_bind {α : Type} (f : Cursor → Scanning α) (c : Cursor) : (get >>= f) c = f c c := rfl

theorem advance_ok {c c' : Cursor} {letter : Char} (h : advance c = .ok letter c') :
    c.current < c.size ∧ c' = { c with current := c.current + 1 } := by
  unfold advance at h
  split at h <;> cases h
  next hc => exact ⟨hc,rfl⟩

/-! ### Lexemes -/

/-- A newline begins another line. -/
def count (letter : Char) (c : Cursor) : Cursor :=
  { c with line := if letter == '\n' then c.line + 1 else c.line }

def matchLetter (expected : Char) : Scanning Bool := do
  let c ← get
  if !c.atEnd && c.peek == expected then
    let _ ← advance
    return true
  return false

/-- The kind of an operator of two characters, or that of its first one alone. -/
def either (second : Char) (long short : Kind) : Scanning Kind :=
  return if ← matchLetter second then long else short

def skipWhile (p : Char → Bool) (c : Cursor) : EStateM.Result AccessFault Cursor Unit :=
  if p c.peek then
    match _h : advance c with
    | .ok _ c' => skipWhile p c'
    | .error fault c' => .error fault c'
  else .ok () c
termination_by c.size - c.current
decreasing_by
  obtain ⟨hlt,rfl⟩ := advance_ok _h
  exact Nat.sub_lt_sub_left hlt (Nat.lt_succ_self _)

/-- Goes on to the closing quote or the end of the text. -/
def skipContents (c : Cursor) : EStateM.Result AccessFault Cursor Unit :=
  if !c.atEnd && c.peek ≠ '"' then
    match _h : advance c with
    | .ok letter c' => skipContents (c'.count letter)
    | .error fault c' => .error fault c'
  else .ok () c
termination_by c.size - c.current
decreasing_by
  obtain ⟨hlt,rfl⟩ := advance_ok _h
  exact Nat.sub_lt_sub_left hlt (Nat.lt_succ_self _)

/-- Goes on to the newline, so that it is still counted. -/
def skipComment : Scanning Unit := do
  let c ← get
  let behind ← bytes c.current c.size
  set { c with current := (behind.findIdx? (Char.ofUInt8 · = '\n')).elim c.size (c.current + ·) }

/-- What a lexeme is found to be: nothing that counts, a token, or a mistake. -/
abbrev Finding := Except Error (Option Kind)

def parseString : Scanning Finding := do
  let opening := (← get).line
  skipContents
  if (← get).atEnd then return .error (.lexical .unterminatedString opening)
  let _ ← advance
  let c ← get
  return .ok (some (.string (← slice (c.start + 1) (c.current - 1))))

def parseNumber : Scanning Kind := do
  skipWhile Char.isDigit
  let c ← get
  if c.peek == '.' && c.peekNext.isDigit then
    let _ ← advance
    skipWhile Char.isDigit
  let c ← get
  return .number (Piece.numberValue (← slice c.start c.current).toList)

def keyword (word : List UInt8) : Kind :=
  ((Kind.keywords.find? (·.1.toByteArray.data.toList == word)).map Prod.snd).getD .identifier

def parseIdentifier : Scanning Kind := do
  skipWhile Piece.isNameRest
  let c ← get
  return keyword (← bytes c.start c.current)

/-- Passes a whole character that no lexeme begins with, however many bytes it has. -/
def skipStray : Scanning Finding := do
  let c ← get
  let stray := (← slice c.start c.size).toList.head?.getD '\ufffd'
  set { c with current := c.start + stray.utf8Size }
  return .error (.lexical (.unexpected stray) c.line)

/-- What the lexeme is that a letter begins. -/
def scanFrom (letter : Char) : Scanning Finding := do
  if letter = '\n' then
    modify (count letter)
    return .ok none
  else if Piece.isBlank letter then return .ok none
  else if let some kind := Piece.punctuator? letter then return .ok (some kind)
  else if let some (short,long) := Piece.operator? letter then
    return .ok (some (← either '=' long short))
  else if letter = '/' then
    if ← matchLetter '/' then
      skipComment
      return .ok none
    return .ok (some .slash)
  else if letter = '"' then parseString
  else if letter.isDigit then return .ok (some (← parseNumber))
  else if Piece.isNameStart letter then return .ok (some (← parseIdentifier))
  else skipStray

def scanToken : Scanning Finding := do scanFrom (← advance)

/-! ### The stream -/

/-- What a turn answers for the lexeme between start and cursor. -/
def answer : Finding → Scanning (Option Item)
  | .error e => return some (.error e)
  | .ok none => return none
  | .ok (some kind) => do
    let c ← get
    return some (.token ⟨kind,← slice c.start c.current,c.line⟩)

/-- One turn of the loop: the item of the lexeme under the cursor, if it has one. -/
def turn : Scanning (Option Item) := do
  modify fun c => { c with start := c.current }
  answer (← scanToken)

/-! Each turn leaves the cursor further on, which is why the stream ends. -/

/-- From behind the start of a lexeme an action comes to a place behind it. -/
def Ahead {α : Type} (act : Scanning α) : Prop := ∀ ⦃c a c'⦄, act c = .ok a c' → c.start < c.current →
  c'.source = c.source ∧ c'.start = c.start ∧ c'.start < c'.current

namespace Ahead

variable {α β : Type}

theorem pure (a : α) : Ahead (pure a) := by
  intro c b c' h hc
  cases h
  exact ⟨rfl,rfl,hc⟩

theorem get : Ahead get := by
  intro c b c' h hc
  cases h
  exact ⟨rfl,rfl,hc⟩

theorem bind {act : Scanning α} {f : α → Scanning β} (h : Ahead act) (hf : ∀ a, Ahead (f a)) :
    Ahead (act >>= f) := by
  intro c b c'' hact hc
  simp only [Bind.bind,EStateM.bind] at hact
  split at hact
  next a c' ha =>
    obtain ⟨hsource,hstart,hlt⟩ := h ha hc
    obtain ⟨hsource',hstart',hlt'⟩ := hf a hact hlt
    exact ⟨hsource'.trans hsource,hstart'.trans hstart,hlt'⟩
  next => cases hact

theorem ite {p : Prop} [Decidable p] {act other : Scanning α} (h : Ahead act) (h' : Ahead other) :
    Ahead (if p then act else other) := by
  split
  · exact h
  · exact h'

theorem advance : Ahead advance := by
  intro c a c' h hc
  obtain ⟨-,rfl⟩ := advance_ok h
  exact ⟨rfl,rfl,Nat.lt_succ_of_lt hc⟩

theorem bytes (first behind : Nat) : Ahead (bytes first behind) := by
  intro c a c' h hc
  unfold Cursor.bytes at h
  split at h <;> cases h
  exact ⟨rfl,rfl,hc⟩

theorem slice (first behind : Nat) : Ahead (slice first behind) := by
  intro c a c' h hc
  unfold Cursor.slice at h
  split at h
  · split at h
    · split at h <;> cases h
      exact ⟨rfl,rfl,hc⟩
    · cases h
  · cases h

theorem matchLetter (expected : Char) : Ahead (matchLetter expected) :=
  get.bind fun _ => .ite (advance.bind fun _ => pure true) (pure false)

theorem skipWhile (p : Char → Bool) : Ahead (skipWhile p) := by
  intro c a c' h hc
  fun_induction Cursor.skipWhile p c with
  | case1 c _ _ c₁ hadvance ih =>
    obtain ⟨-,rfl⟩ := advance_ok hadvance
    exact ih h (Nat.lt_succ_of_lt hc)
  | case2 => cases h
  | case3 =>
    cases h
    exact ⟨rfl,rfl,hc⟩

theorem skipContents : Ahead skipContents := by
  intro c a c' h hc
  fun_induction Cursor.skipContents c with
  | case1 c _ letter c₁ hadvance ih =>
    obtain ⟨-,rfl⟩ := advance_ok hadvance
    exact ih h (Nat.lt_succ_of_lt hc)
  | case2 => cases h
  | case3 =>
    cases h
    exact ⟨rfl,rfl,hc⟩

theorem skipComment : Ahead skipComment := by
  intro c a c' h hc
  unfold Cursor.skipComment at h
  rw [get_bind] at h
  simp only [Cursor.bytes,Bind.bind,EStateM.bind] at h
  split at h
  next hbytes =>
    split at hbytes <;> cases hbytes
    next hsize =>
      cases h
      refine ⟨rfl,rfl,Nat.lt_of_lt_of_le hc ?_⟩
      dsimp only
      cases List.findIdx? (Char.ofUInt8 · = '\n') _ with
      | none => exact hsize.1
      | some distance => exact Nat.le_add_right _ _
  next => cases h

theorem skipStray : Ahead skipStray := by
  intro c a c' h hc
  unfold Cursor.skipStray at h
  rw [get_bind] at h
  simp only [Bind.bind,EStateM.bind] at h
  split at h
  next rest c₁ hslice =>
    obtain ⟨hsource,hstart,-⟩ := slice _ _ hslice hc
    cases h
    exact ⟨rfl,rfl,Nat.lt_add_of_pos_right (Char.utf8Size_pos _)⟩
  next => cases h

theorem parseString : Ahead parseString :=
  get.bind fun _ => skipContents.bind fun _ => get.bind fun _ => .ite (pure _) <|
    advance.bind fun _ => get.bind fun _ => (slice _ _).bind fun _ => pure _

theorem parseNumber : Ahead parseNumber :=
  (skipWhile _).bind fun _ => get.bind fun _ => .ite
    (advance.bind fun _ => (skipWhile _).bind fun _ => get.bind fun _ => (slice _ _).bind fun _ => pure _)
    (get.bind fun _ => (slice _ _).bind fun _ => pure _)

theorem parseIdentifier : Ahead parseIdentifier :=
  (skipWhile _).bind fun _ => get.bind fun _ => (bytes _ _).bind fun _ => pure _

theorem either (second : Char) (long short : Kind) : Ahead (either second long short) :=
  (matchLetter second).bind fun _ => pure _

theorem scanFrom (letter : Char) : Ahead (scanFrom letter) := by
  unfold Cursor.scanFrom
  split
  · intro c a c' h hc
    cases h
    exact ⟨rfl,rfl,hc⟩
  split
  · exact pure _
  split
  · exact pure _
  split
  · exact (either _ _ _).bind fun _ => pure _
  split
  · exact (matchLetter _).bind fun _ => .ite (skipComment.bind fun _ => pure _) (pure _)
  split
  · exact parseString
  split
  · exact parseNumber.bind fun _ => pure _
  split
  · exact parseIdentifier.bind fun _ => pure _
  · exact skipStray

/-- The first byte of a lexeme takes the cursor behind its start. -/
theorem scanToken {c c' : Cursor} {found : Finding} (h : scanToken c = .ok found c') (hc : c.start ≤ c.current) :
    c'.source = c.source ∧ c'.start = c.start ∧ c'.start < c'.current := by
  simp only [Cursor.scanToken,Bind.bind,EStateM.bind] at h
  split at h
  next letter c₁ hadvance =>
    obtain ⟨-,rfl⟩ := advance_ok hadvance
    have hahead := scanFrom letter h (Nat.lt_succ_of_le hc)
    exact hahead
  next => cases h

theorem answer (found : Finding) : Ahead (answer found) := by
  cases found with
  | error => exact pure _
  | ok kind? =>
    cases kind? with
    | none => exact pure _
    | some => exact get.bind fun _ => (slice _ _).bind fun _ => pure _

end Ahead

/-- A turn passes at least one byte. -/
theorem turn_ok {c c' : Cursor} {item : Option Item} (h : turn c = .ok item c') :
    c'.source = c.source ∧ c.current < c'.current := by
  change (scanToken >>= answer) { c with start := c.current } = _ at h
  simp only [Bind.bind,EStateM.bind] at h
  split at h
  next found c₁ hfound =>
    obtain ⟨hsource,hstart,hlt⟩ := Ahead.scanToken hfound (Nat.le_refl _)
    obtain ⟨hsource',hstart',hlt'⟩ := Ahead.answer found h hlt
    rw [hstart',hstart] at hlt'
    exact ⟨hsource'.trans hsource,hlt'⟩
  next => cases h

/-- The next item: the one of the first lexeme that has one, and at the end of the text the end mark, once. -/
def next (c : Cursor) : EStateM.Result AccessFault Cursor (Option Item) :=
  if _hc : c.current < c.size then
    match _h : turn c with
    | .ok none c' => next c'
    | .ok (some item) c' => .ok (some item) c'
    | .error fault c' => .error fault c'
  else if c.current = c.size then .ok (some (.token (.eof c.line))) { c with current := c.current + 1 }
  else .ok none c
termination_by c.size - c.current
decreasing_by
  obtain ⟨hsource,hlt⟩ := turn_ok _h
  rw [size,hsource]
  exact Nat.sub_lt_sub_left _hc hlt

section Next

variable {c c' : Cursor}

theorem next_of_turn_none (hc : c.current < c.size) (h : turn c = .ok none c') : next c = next c' := by
  rw [next,dif_pos hc]
  split
  next h' => cases h'.symm.trans h; rfl
  next h' => cases h'.symm.trans h
  next h' => cases h'.symm.trans h

theorem next_of_turn_some {item : Item} (hc : c.current < c.size) (h : turn c = .ok (some item) c') :
    next c = .ok (some item) c' := by
  rw [next,dif_pos hc]
  split
  next h' => cases h'.symm.trans h
  next h' => cases h'.symm.trans h; rfl
  next h' => cases h'.symm.trans h

theorem next_at_end (h : c.current = c.size) :
    next c = .ok (some (.token (.eof c.line))) { c with current := c.current + 1 } := by
  rw [next,dif_neg (Nat.not_lt_of_le (Nat.le_of_eq h.symm)),if_pos h]

theorem next_beyond (h : c.size < c.current) : next c = .ok none c := by
  rw [next,dif_neg (Nat.not_lt_of_lt h),if_neg (Nat.ne_of_gt h)]

theorem next_ok {item : Item} (h : next c = .ok (some item) c') :
    c'.source = c.source ∧ c.current ≤ c.size ∧ c.current < c'.current := by
  fun_induction next c with
  | case1 c hc c₁ hturn ih =>
    obtain ⟨hsource,hlt⟩ := turn_ok hturn
    obtain ⟨hsource',-,hlt'⟩ := ih h
    exact ⟨hsource'.trans hsource,Nat.le_of_lt hc,Nat.lt_trans hlt hlt'⟩
  | case2 c hc found c₁ hturn =>
    cases h
    obtain ⟨hsource,hlt⟩ := turn_ok hturn
    exact ⟨hsource,Nat.le_of_lt hc,hlt⟩
  | case3 => cases h
  | case4 c _ hc =>
    cases h
    exact ⟨rfl,Nat.le_of_eq hc,Nat.lt_succ_self _⟩
  | case5 => cases h

end Next

/-- All items up to the end of the stream. -/
def drain (c : Cursor) : EStateM.Result AccessFault Cursor (List Item) :=
  match _h : next c with
  | .ok none c' => .ok [] c'
  | .ok (some item) c' =>
    match drain c' with
    | .ok items c'' => .ok (item :: items) c''
    | .error fault c'' => .error fault c''
  | .error fault c' => .error fault c'
termination_by c.size + 1 - c.current
decreasing_by
  obtain ⟨hsource,hle,hlt⟩ := next_ok _h
  rw [size,hsource]
  exact Nat.sub_lt_sub_left (Nat.lt_succ_of_le hle) hlt

theorem drain_of_next_none {c c' : Cursor} (h : next c = .ok none c') : drain c = .ok [] c' := by
  rw [drain]
  split
  next h' => cases h'.symm.trans h; rfl
  next h' => cases h'.symm.trans h
  next h' => cases h'.symm.trans h

theorem drain_of_next_some {c c' c'' : Cursor} {item : Item} {items : List Item} (h : next c = .ok (some item) c')
    (hitems : drain c' = .ok items c'') : drain c = .ok (item :: items) c'' := by
  rw [drain]
  split
  next h' => cases h'.symm.trans h
  next h' =>
    cases h'.symm.trans h
    rw [hitems]
  next h' => cases h'.symm.trans h

end Cursor
end Lox

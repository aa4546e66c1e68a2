import Lox.Proofs.Syntax.FirstToken

/-! The grammar of programs without regard to what an assignment assigns to and to how many arguments or parameters
there are, in the form of one rule for each phrase. -/
namespace Lox
namespace Relaxed

/-- The phrases that have a rule. -/
inductive Phrase
  | program | declaration | classDecl | funDecl | function | parameters | varDecl
  | statement | exprStmt | forStmt | ifStmt | printStmt | returnStmt | whileStmt | block
  | expression | assignment | logicOr | logicAnd | ternary | equality | comparison | term | factor | unary | call
  | arguments | primary

/-- What the right side of a rule is made of. -/
inductive Pattern
  /-- A token of one of these kinds. -/
  | oneOf (kind : Kind) (others : List Kind)
  | number
  | string
  | rule (name : Phrase)
  | both (first second : Pattern)
  | either (first second : Pattern)
  | optional (p : Pattern)
  /-- Any number of repetitions, none included. -/
  | many (p : Pattern)

namespace Pattern

def token (kind : Kind) : Pattern := oneOf kind []

instance : Append Pattern := ⟨both⟩

instance : OrOp Pattern := ⟨either⟩

/-- Items with commas between them, at least one. -/
def list (item : Pattern) : Pattern := item ++ many (token .comma ++ item)

/-- Operands with operators of one level between them. -/
def operations (operand : Phrase) (operator : Kind) (others : List Kind) : Pattern :=
  rule operand ++ many (oneOf operator others ++ rule operand)

end Pattern

open Pattern

/-- The rules. That of an assignment has any operand on its left side. -/
def rules : Phrase → Pattern
  | .program => many (rule .declaration)
  | .declaration => rule .classDecl ||| rule .funDecl ||| rule .varDecl ||| rule .statement
  | .classDecl => token .kwClass ++ token .identifier ++ optional (token .less ++ token .identifier) ++
    token .leftBrace ++ many (rule .function) ++ token .rightBrace
  | .funDecl => token .kwFun ++ rule .function
  | .function => token .identifier ++ token .leftParen ++ optional (rule .parameters) ++ token .rightParen ++
    rule .block
  | .parameters => list (token .identifier)
  | .varDecl => token .kwVar ++ token .identifier ++ optional (token .equal ++ rule .expression) ++
    token .semicolon
  | .statement => rule .exprStmt ||| rule .forStmt ||| rule .ifStmt ||| rule .printStmt |||
    rule .returnStmt ||| rule .whileStmt ||| rule .block
  | .exprStmt => rule .expression ++ token .semicolon
  | .forStmt => token .kwFor ++ token .leftParen ++
    (rule .varDecl ||| rule .exprStmt ||| token .semicolon) ++ optional (rule .expression) ++
    token .semicolon ++ optional (rule .expression) ++ token .rightParen ++ rule .statement
  | .ifStmt => token .kwIf ++ token .leftParen ++ rule .expression ++ token .rightParen ++ rule .statement ++
    optional (token .kwElse ++ rule .statement)
  | .printStmt => token .kwPrint ++ rule .expression ++ token .semicolon
  | .returnStmt => token .kwReturn ++ optional (rule .expression) ++ token .semicolon
  | .whileStmt => token .kwWhile ++ token .leftParen ++ rule .expression ++ token .rightParen ++
    rule .statement
  | .block => token .leftBrace ++ many (rule .declaration) ++ token .rightBrace
  | .expression => rule .assignment
  | .assignment => rule .logicOr ++ optional (token .equal ++ rule .assignment)
  | .logicOr => operations .logicAnd .kwOr []
  | .logicAnd => operations .ternary .kwAnd []
  | .ternary => rule .equality ++
    optional (token .question ++ rule .expression ++ token .colon ++ rule .ternary)
  | .equality => operations .comparison .bangEqual [.equalEqual]
  | .comparison => operations .term .greater [.greaterEqual,.less,.lessEqual]
  | .term => operations .factor .minus [.plus]
  | .factor => operations .unary .slash [.star]
  | .unary => oneOf .bang [.minus] ++ rule .unary ||| rule .call
  | .call => rule .primary ++
    many (token .leftParen ++ optional (rule .arguments) ++ token .rightParen ||| token .dot ++ token .identifier)
  | .arguments => list (rule .expression)
  | .primary => number ||| string ||| oneOf .kwTrue [.kwFalse,.kwNil,.kwThis,.identifier] |||
    token .leftParen ++ rule .expression ++ token .rightParen |||
    token .kwSuper ++ token .dot ++ token .identifier

/-- The token lists that a pattern stands for. -/
inductive Derives : Pattern → List Token → Prop
  | oneOf {kind others t} : t.kind ∈ kind :: others → Derives (.oneOf kind others) [t]
  | number {x t} : t.kind = .number x → Derives .number [t]
  | string {contents t} : t.kind = .string contents → Derives .string [t]
  | rule {name ts} : Derives (rules name) ts → Derives (.rule name) ts
  | both {p q ts us} : Derives p ts → Derives q us → Derives (.both p q) (ts ++ us)
  | first {p q ts} : Derives p ts → Derives (.either p q) ts
  | second {p q ts} : Derives q ts → Derives (.either p q) ts
  | absent {p} : Derives (.optional p) []
  | present {p ts} : Derives p ts → Derives (.optional p) ts
  | none {p} : Derives (.many p) []
  | more {p ts us} : Derives p ts → Derives (.many p) us → Derives (.many p) (ts ++ us)

/-- A program in front of its end mark. -/
abbrev Program (ts : List Token) : Prop := Derives (.rule .program) ts

/-! ### No phrase is impossible -/

/-- The pattern stands for some tokens. -/
def Productive (p : Pattern) : Prop := ∃ ts, Derives p ts

namespace Productive

variable {p q : Pattern}

theorem oneOf (kind : Kind) (others : List Kind) : Productive (.oneOf kind others) :=
  ⟨[⟨kind,"",1⟩],.oneOf List.mem_cons_self⟩

theorem token (kind : Kind) : Productive (.token kind) := oneOf kind []

theorem rule (name : Phrase) (h : Productive (rules name)) : Productive (.rule name) := h.imp fun _ => .rule

theorem both (hp : Productive p) (hq : Productive q) : Productive (p ++ q) := by
  obtain ⟨ts,hts⟩ := hp
  obtain ⟨us,hus⟩ := hq
  exact ⟨ts ++ us,.both hts hus⟩

theorem first (h : Productive p) : Productive (p ||| q) := h.imp fun _ => .first

theorem second (h : Productive q) : Productive (p ||| q) := h.imp fun _ => .second

theorem optional (p : Pattern) : Productive (.optional p) := ⟨[],.absent⟩

theorem many (p : Pattern) : Productive (.many p) := ⟨[],.none⟩

theorem list (h : Productive p) : Productive (.list p) := h.both (many _)

theorem operations {operand : Phrase} (h : Productive (.rule operand)) (operator : Kind) (others : List Kind) :
    Productive (.operations operand operator others) := h.both (many _)

theorem primary : Productive (.rule .primary) := rule _ (first (first (second (oneOf _ _))))

theorem call : Productive (.rule .call) := rule _ (primary.both (many _))

theorem unary : Productive (.rule .unary) := rule _ (second call)

theorem factor : Productive (.rule .factor) := rule _ (operations unary _ _)

theorem term : Productive (.rule .term) := rule _ (operations factor _ _)

theorem comparison : Productive (.rule .comparison) := rule _ (operations term _ _)

theorem equality : Productive (.rule .equality) := rule _ (operations comparison _ _)

theorem ternary : Productive (.rule .ternary) := rule _ (equality.both (optional _))

theorem logicAnd : Productive (.rule .logicAnd) := rule _ (operations ternary _ _)

theorem logicOr : Productive (.rule .logicOr) := rule _ (operations logicAnd _ _)

theorem assignment : Productive (.rule .assignment) := rule _ (logicOr.both (optional _))

theorem expression : Productive (.rule .expression) := rule _ assignment

theorem exprStmt : Productive (.rule .exprStmt) := rule _ (expression.both (token _))

theorem block : Productive (.rule .block) := rule _ (((token _).both (many _)).both (token _))

theorem statement : Productive (.rule .statement) := rule _ (second block)

theorem varDecl : Productive (.rule .varDecl) :=
  rule _ ((((token _).both (token _)).both (optional _)).both (token _))

theorem function : Productive (.rule .function) :=
  rule _ (((((token _).both (token _)).both (optional _)).both (token _)).both block)

theorem of_rule (name : Phrase) : Productive (.rule name) := by
  have hcondition {keyword : Kind} : Productive (.token keyword ++ .token .leftParen ++ .rule .expression ++
      .token .rightParen ++ .rule .statement) :=
    ((((token _).both (token _)).both expression).both (token _)).both statement
  cases name with
  | program => exact rule _ (many _)
  | declaration => exact rule _ (second statement)
  | classDecl =>
    exact rule _ ((((((token _).both (token _)).both (optional _)).both (token _)).both (many _)).both (token _))
  | funDecl => exact rule _ ((token _).both function)
  | function => exact function
  | parameters => exact rule _ (list (token _))
  | varDecl => exact varDecl
  | statement => exact statement
  | exprStmt => exact exprStmt
  | forStmt =>
    have hclauses : Productive (.token .kwFor ++ .token .leftParen ++
        (.rule .varDecl ||| .rule .exprStmt ||| .token .semicolon) ++ .optional (.rule .expression) ++
        .token .semicolon) :=
      ((((token _).both (token _)).both (second (token _))).both (optional _)).both (token _)
    exact rule _ (((hclauses.both (optional _)).both (token _)).both statement)
  | ifStmt => exact rule _ (hcondition.both (optional _))
  | printStmt => exact rule _ (((token _).both expression).both (token _))
  | returnStmt => exact rule _ (((token _).both (optional _)).both (token _))
  | whileStmt => exact rule _ hcondition
  | block => exact block
  | expression => exact expression
  | assignment => exact assignment
  | logicOr => exact logicOr
  | logicAnd => exact logicAnd
  | ternary => exact ternary
  | equality => exact equality
  | comparison => exact comparison
  | term => exact term
  | factor => exact factor
  | unary => exact unary
  | call => exact call
  | arguments => exact rule _ (list expression)
  | primary => exact primary

end Productive

theorem productive (p : Pattern) : Productive p := by
  induction p with
  | oneOf kind others => exact .oneOf kind others
  | number => exact ⟨[⟨.number 0,"",1⟩],.number rfl⟩
  | string => exact ⟨[⟨.string "","",1⟩],.string rfl⟩
  | rule name => exact .of_rule name
  | both p q hp hq => exact hp.both hq
  | either p q hp hq => exact hp.first
  | optional p _ => exact .optional p
  | many p _ => exact .many p

end Relaxed
end Lox

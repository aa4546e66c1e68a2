import Lox.Syntax

/-! A local variable under another name: its declaration and the occurrences that scoping binds to it are
replaced, and nothing else. -/
namespace Lox

/-- One name in place of another. An occurrence that is bound to a local variable has the distance to it. -/
structure Renaming where
  old : String
  new : String
  bound : ExprId → Option Nat

namespace Renaming

variable (ρ : Renaming)

def name (renamed : Bool) (x : String) : String := if renamed ∧ x = ρ.old then ρ.new else x

/-- Only the spelling of a token changes. -/
def token (renamed : Bool) (t : Token) : Token := { t with lexeme := ρ.name renamed t.lexeme }

end Renaming

/-! ### Renaming one variable -/

mutual

/-- An expression that stands `n` scopes inside the one that has the variable. -/
def Expr.rename (ρ : Renaming) (n : Nat) : Expr → Expr
  | .literal value => .literal value
  | .grouping inner => .grouping (inner.rename ρ n)
  | .unary operator right => .unary operator (right.rename ρ n)
  | .binary left operator right => .binary (left.rename ρ n) operator (right.rename ρ n)
  | .logical left operator right => .logical (left.rename ρ n) operator (right.rename ρ n)
  | .ternary condition ifTrue ifFalse =>
    .ternary (condition.rename ρ n) (ifTrue.rename ρ n) (ifFalse.rename ρ n)
  | .variable id name => .variable id (ρ.token (ρ.bound id = some n) name)
  | .assign id name value => .assign id (ρ.token (ρ.bound id = some n) name) (value.rename ρ n)
  | .call callee paren arguments => .call (callee.rename ρ n) paren (Expr.listRename ρ n arguments)
  | .get object name => .get (object.rename ρ n) name
  | .set object name value => .set (object.rename ρ n) name (value.rename ρ n)
  | .this id keyword => .this id keyword
  | .super id keyword method => .super id keyword method

def Expr.listRename (ρ : Renaming) (n : Nat) : List Expr → List Expr
  | [] => []
  | e :: es => e.rename ρ n :: Expr.listRename ρ n es

end

def Expr.optionRename (ρ : Renaming) (n : Nat) : Option Expr → Option Expr
  | none => none
  | some e => some (e.rename ρ n)

namespace Stmt

mutual

/-- A statement that stands `n` scopes inside the one that has the variable. -/
def rename (ρ : Renaming) (n : Nat) : Stmt → Stmt
  | .expression e => .expression (e.rename ρ n)
  | .print e => .print (e.rename ρ n)
  | .var name initializer => .var (ρ.token (n = 0) name) (Expr.optionRename ρ n initializer)
  | .block body => .block (listRename ρ (n + 1) body)
  | .branch condition thenBranch elseBranch =>
    .branch (condition.rename ρ n) (thenBranch.rename ρ n) (optionRename ρ n elseBranch)
  | .loop condition body => .loop (condition.rename ρ n) (body.rename ρ n)
  | .function d => .function (functionRename ρ (n + 1) d)
  | .return keyword value => .return keyword (Expr.optionRename ρ n value)
  | .class name superclass methods =>
    let receiver := match superclass with
      | none => n + 1
      | some _ => n + 2
    .class name (Expr.optionRename ρ n superclass) (methodRename ρ receiver methods)

def optionRename (ρ : Renaming) (n : Nat) : Option Stmt → Option Stmt
  | none => none
  | some s => some (s.rename ρ n)

def listRename (ρ : Renaming) (n : Nat) : List Stmt → List Stmt
  | [] => []
  | s :: ss => s.rename ρ n :: listRename ρ n ss

/-- A function whose own scope is the `n`th one inside that of the variable, or that scope itself. -/
def functionRename (ρ : Renaming) (n : Nat) : FunctionDecl → FunctionDecl
  | ⟨name,parameters,body⟩ => ⟨name,parameters.map (ρ.token (n = 0)),listRename ρ n body⟩

/-- The methods of a class whose receiver has the `n`th scope inside that of the variable. -/
def methodRename (ρ : Renaming) (n : Nat) : List FunctionDecl → List FunctionDecl
  | [] => []
  | d :: ds => functionRename ρ (n + 1) d :: methodRename ρ n ds

end

/-! ### Finding the variable -/

/-- The name in a variable declaration. -/
def varName? : Stmt → Option Token
  | .var name _ => some name
  | _ => none

/-- The variables that are declared in the scope of a function: its parameters and those of its body. -/
def functionVariables (d : FunctionDecl) : List Token := d.parameters ++ d.body.filterMap varName?

/-- The variables that are declared in the scope of one block or function. A path leads there: at each step it
says in which statement, or in which method, the scope is found. -/
def variablesAt : List Nat → Stmt → List Token
  | [],.block body => body.filterMap varName?
  | k :: path,.block body => body[k]?.elim [] (variablesAt path)
  | 0 :: path,.branch _ thenBranch _ => thenBranch.variablesAt path
  | _ :: path,.branch _ _ elseBranch => elseBranch.elim [] (variablesAt path)
  | _ :: path,.loop _ body => body.variablesAt path
  | [],.function d => functionVariables d
  | k :: path,.function d => d.body[k]?.elim [] (variablesAt path)
  | [k],.class _ _ methods => methods[k]?.elim [] functionVariables
  | k :: j :: path,.class _ _ methods => (methods[k]?.bind (·.body[j]?)).elim [] (variablesAt path)
  | _,_ => []

/-- A variable is renamed that is declared in the scope at the end of a path. -/
def renameAt (ρ : Renaming) : List Nat → Stmt → Stmt
  | [],.block body => .block (listRename ρ 0 body)
  | k :: path,.block body => .block (body.modify k (renameAt ρ path))
  | 0 :: path,.branch condition thenBranch elseBranch =>
    .branch condition (thenBranch.renameAt ρ path) elseBranch
  | _ :: path,.branch condition thenBranch elseBranch =>
    .branch condition thenBranch (elseBranch.map (renameAt ρ path))
  | _ :: path,.loop condition body => .loop condition (body.renameAt ρ path)
  | [],.function d => .function (functionRename ρ 0 d)
  | k :: path,.function d => .function { d with body := d.body.modify k (renameAt ρ path) }
  | [k],.class name superclass methods =>
    .class name superclass (methods.modify k (functionRename ρ 0))
  | k :: j :: path,.class name superclass methods =>
    .class name superclass (methods.modify k fun d => { d with body := d.body.modify j (renameAt ρ path) })
  | _,s => s

/-! ### What is declared afterwards -/

section

variable (ρ : Renaming)

theorem variables_listRename (ss : List Stmt) :
    (listRename ρ 0 ss).filterMap varName? = (ss.filterMap varName?).map (ρ.token true) := by
  induction ss with
  | nil => rfl
  | cons s ss ih =>
    rw [listRename,List.filterMap_cons,List.filterMap_cons,ih]
    cases s <;> rfl

theorem variables_functionRename (d : FunctionDecl) :
    functionVariables (functionRename ρ 0 d) = (functionVariables d).map (ρ.token true) := by
  obtain ⟨name,parameters,body⟩ := d
  exact (congrArg _ (variables_listRename ρ body)).trans List.map_append.symm

theorem elim_modify {α β : Type} (as : List α) (k : Nat) {f : α → α} {g : α → List β} {h : β → β}
    (hf : ∀ a, g (f a) = (g a).map h) : (as.modify k f)[k]?.elim [] g = (as[k]?.elim [] g).map h := by
  rw [List.getElem?_modify_eq]
  cases as[k]? with
  | none => rfl
  | some a => exact hf a

/-- A path leads to the same variables as before, and those of the old name have the new one. -/
theorem variablesAt_renameAt (path : List Nat) (s : Stmt) :
    (s.renameAt ρ path).variablesAt path = (s.variablesAt path).map (ρ.token true) := by
  match path,s with
  | [],.block body => exact variables_listRename ρ body
  | k :: path,.block body => exact elim_modify body k (variablesAt_renameAt path)
  | 0 :: path,.branch e a b => exact variablesAt_renameAt path a
  | (k + 1) :: path,.branch e a none => rfl
  | (k + 1) :: path,.branch e a (some b) => exact variablesAt_renameAt path b
  | k :: path,.loop e b => exact variablesAt_renameAt path b
  | [],.function d => exact variables_functionRename ρ d
  | k :: path,.function d => exact elim_modify d.body k (variablesAt_renameAt path)
  | [k],.class name e ds => exact elim_modify ds k (variables_functionRename ρ)
  | k :: j :: path,.class name e ds =>
    simp only [renameAt,variablesAt,List.getElem?_modify_eq]
    cases ds[k]? with
    | none => rfl
    | some d => exact elim_modify d.body j (variablesAt_renameAt path)
  | [],.expression _ | [],.print _ | [],.var _ _ | [],.return _ _ => rfl
  | _ :: _,.expression _ | _ :: _,.print _ | _ :: _,.var _ _ | _ :: _,.return _ _ => rfl
  | [],.branch _ _ _ | [],.loop _ _ | [],.class _ _ _ => rfl

end

end Stmt

/-- The variables that a program declares in the scope at the end of a path. Global names are in none of these
scopes. -/
def variablesAt : List Nat → List Stmt → List Token
  | [],_ => []
  | k :: path,program => program[k]?.elim [] (Stmt.variablesAt path)

/-- A program in which a variable has another name. -/
def renameAt (ρ : Renaming) : List Nat → List Stmt → List Stmt
  | [],program => program
  | k :: path,program => program.modify k (Stmt.renameAt ρ path)

theorem variablesAt_renameAt (ρ : Renaming) (path : List Nat) (program : List Stmt) :
    variablesAt path (renameAt ρ path program) = (variablesAt path program).map (ρ.token true) := by
  cases path with
  | nil => rfl
  | cons k path => exact Stmt.elim_modify program k (Stmt.variablesAt_renameAt ρ path)

end Lox

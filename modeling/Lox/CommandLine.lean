import Lox.Session
import Lox.Syntax.PrefixForm
import Lox.Token.Json

/-! The commands of the program, as functions from what they read to what they write. -/
namespace Lox
namespace CommandLine

inductive Command
  | tokenize (file : String) (asJson : Bool)
  | parse (file : String)
  | run (file : String)
  | repl
deriving DecidableEq

namespace Command

/-- Words that begin with a dash are options, up to a word of two dashes that ends them. -/
def splitOptions : List String → List String × List String
  | [] => ([],[])
  | word :: rest =>
    if word = "--" then ([],rest)
    else
      let (options,files) := splitOptions rest
      if word.startsWith "-" && word != "-" then (word :: options,files)
      else (options,word :: files)

/-- Without arguments a session at the prompt is started. -/
def ofArguments? : List String → Option Command
  | [] => some .repl
  | name :: rest => match name,splitOptions rest with
    | "repl",([],[]) => some .repl
    | "run",([],[file]) => some (.run file)
    | "parse",([],[file]) => some (.parse file)
    | "tokenize",([],[file]) => some (.tokenize file false)
    | "tokenize",(["--json"],[file]) => some (.tokenize file true)
    | _,_ => none

end Command

/-- Why a file could not be read. -/
inductive ReadFailure
  | missing
  | directory
  | notDirectory
  | notText
  | other (reason : String)
deriving DecidableEq

def ReadFailure.message : ReadFailure → String
  | missing => "No such file or directory (os error 2)"
  | directory => "Is a directory (os error 21)"
  | notDirectory => "Not a directory (os error 20)"
  | other reason => reason
  | notText => "stream did not contain valid UTF-8"

/-- The exit code of a command and what it wrote to its two streams. -/
structure Transcript where
  exit : Nat
  out : String
  err : String
deriving DecidableEq

/-- Texts as lines. -/
def lines (texts : List String) : String := String.join (texts.map (· ++ "\n"))

def reports (errors : List Error) : String := lines (errors.map Error.text)

def tokenize (asJson : Bool) (source : String) : Transcript :=
  let s := scan source
  let out := if asJson then lines [Token.listJson s.tokens] else lines (s.tokens.map Token.text)
  ⟨if s.errors.isEmpty then 0 else 65,out,reports s.errors⟩

/-- Errors are written in the order in which they were found. -/
def parse (source : String) : Transcript :=
  match (Reading.ofSource source ⟨0⟩).program with
  | .ok program => ⟨0,lines (program.map Stmt.prefixForm),""⟩
  | .error errors => ⟨65,"",reports errors⟩

def run (budget : Nat) (clock : Clock) (source : String) : Transcript :=
  let (status,s) := (Session.new .unlimited clock).run budget source
  ⟨status.exitCode,s.machine.output.since 0,reports status.errors⟩

def readFailed (file : String) (failure : ReadFailure) : Transcript :=
  ⟨1,"","Error: Failed to read file " ++ Text.inspect file ++ "\n\nCaused by:\n    " ++
    failure.message ++ "\n"⟩

def prompt : String := "> "

/-- Run one line of a session at the prompt: its output and its errors. -/
def replLine (budget : Nat) (line : String) (s : Session) : String × String × Session :=
  let mark := s.machine.output.written.size
  let (status,s) := s.run budget line
  (s.machine.output.since mark,reports status.errors,s)

/-- Run lines, with the prompt before each and once more before the end of input. -/
def replLines (budget : Nat) : List String → Session → String × String
  | [],_ => (prompt ++ "\n","")
  | line :: rest,s =>
    let (out,err,s) := replLine budget line s
    let (outs,errs) := replLines budget rest s
    (prompt ++ out ++ outs,err ++ errs)

/-- Cut a text behind each newline. -/
def splitLines : List Char → List (List Char)
  | [] => []
  | c :: cs =>
    if c = '\n' then [c] :: splitLines cs
    else match splitLines cs with
      | [] => [[c]]
      | line :: rest => (c :: line) :: rest

def repl (budget : Nat) (clock : Clock) (input : String) : Transcript :=
  let (out,err) :=
    replLines budget ((splitLines input.toList).map String.ofList) (Session.new .unlimited clock)
  ⟨0,out,err⟩

/-- What a command does, given the files it may read and its input. -/
def Command.perform (budget : Nat) (clock : Clock) (read : String → Except ReadFailure String)
    (input : String) : Command → Transcript
  | .tokenize file asJson => onFile file (CommandLine.tokenize asJson)
  | .parse file => onFile file CommandLine.parse
  | .run file => onFile file (CommandLine.run budget clock)
  | .repl => CommandLine.repl budget clock input
where
  onFile (file : String) (action : String → Transcript) : Transcript :=
    match read file with
    | .ok source => action source
    | .error failure => readFailed file failure

end CommandLine
end Lox

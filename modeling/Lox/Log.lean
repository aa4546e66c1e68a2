import Lox.Error

/-! What the parts of a session report about their work. An event is data; level, topic and
wording are read off it. -/
namespace Lox

inductive Level
  | info
  | debug
deriving DecidableEq

namespace Level

def name : Level → String
  | info => "INFO"
  | debug => "DEBUG"

/-- Whether a reader who asks for `wanted` sees records of this level. -/
def shownAt (level wanted : Level) : Bool := wanted == .debug || level == .info

end Level

/-- The part of a session that an event is about. -/
inductive Topic
  | session
  | scanner
  | parser
  | resolver
  | interpreter
  | callable
  | classes
  | errors
deriving DecidableEq

inductive Event
  | running (bytes : Nat)
  | scanning (bytes : Nat)
  | lexicalError (byte : Nat) (e : Error)
  | scanned (tokens errors : Nat)
  | parserCreated (tokens : Nat)
  | parsing
  | parsed (statements errors : Nat)
  | declaration (line : Nat)
  | recovering (e : Error)
  | classParsed (name : String) (methods : Nat)
  | forLoop (line : Nat)
  | resolving (statements : Nat)
  | resolved (errors : Nat)
  | classResolved (name : String)
  | localResolved (name : String) (depth : Nat)
  | globalResolved (name : String)
  | initializing
  | nativeDefined (name : String)
  | interpreting (statements : Nat)
  | completed
  | aborted (e : Error)
  | variableDefined (name : String)
  | functionDefined (name : String)
  | classDefined (name : String)
  | superFound (method superclass : String) (line : Nat)
  | depthLimit (name : String)
  | functionCalled (name : String)
  | nativeCalled (name : String)
  | constructing (name : String)
  | errorCreated (e : Error)
  | tornDown (scopes : Nat)
deriving DecidableEq

namespace Event

def topic : Event → Topic
  | running _ => .session
  | scanning _ | lexicalError .. | scanned .. => .scanner
  | parserCreated _ | parsing | parsed .. | declaration _ | recovering _ | classParsed ..
  | forLoop _ => .parser
  | resolving _ | resolved _ | classResolved _ | localResolved .. | globalResolved _ => .resolver
  | initializing | nativeDefined _ | interpreting _ | completed | aborted _ | variableDefined _
  | functionDefined _ | classDefined _ | superFound .. | depthLimit _ | tornDown _ => .interpreter
  | functionCalled _ | nativeCalled _ => .callable
  | constructing _ => .classes
  | errorCreated _ => .errors

def level : Event → Level
  | running _ | scanning _ | scanned .. | parserCreated _ | parsing | parsed .. | resolving _
  | resolved _ | initializing | completed | aborted _ | errorCreated _ => .info
  | _ => .debug

/-- The record of an error being made. -/
def creation (e : Error) : String :=
  let located (kind : String) (line : Nat) :=
    "Creating " ++ kind ++ " error: line=" ++ toString line ++ ", msg=" ++ e.message
  match e with
  | .lexical _ line => located "Lex" line
  | .syntactic _ found => located "Parse" found.line
  | .static _ found => located "Resolve" found.line
  | .runtime _ line => located "Runtime" line
  | .internal fault => "Creating Internal error: msg=" ++ fault.message
  | .stackOverflow _ | .output _ => e.text

def message : Event → String
  | running bytes => "Running " ++ toString bytes ++ " bytes of source"
  | scanning bytes => "Scanner created over " ++ toString bytes ++ " bytes"
  | lexicalError byte e => "Lex error at byte " ++ toString byte ++ ": " ++ e.text
  | scanned tokens errors =>
    "Scanned " ++ toString tokens ++ " tokens with " ++ toString errors ++ " error(s)"
  | parserCreated tokens => "Parser created with " ++ toString tokens ++ " tokens"
  | parsing => "Beginning parse phase"
  | parsed statements errors =>
    "Parsed " ++ toString statements ++ " statement(s), " ++ toString errors ++ " error(s)"
  | declaration line => "Entering declaration at line " ++ toString line
  | recovering e => "Parse error, synchronizing: " ++ e.text
  | classParsed name methods =>
    "Parsed class '" ++ name ++ "' with " ++ toString methods ++ " method(s)"
  | forLoop line => "Desugared for loop at line " ++ toString line
  | resolving statements =>
    "Beginning resolve pass over " ++ toString statements ++ " statement(s)"
  | resolved errors => "Resolve pass finished with " ++ toString errors ++ " error(s)"
  | classResolved name => "Resolved class '" ++ name ++ "'"
  | localResolved name depth => "Resolved '" ++ name ++ "' at depth " ++ toString depth
  | globalResolved name => "Resolved '" ++ name ++ "' as global"
  | initializing => "Initializing Interpreter"
  | nativeDefined name => "Defining native function '" ++ name ++ "'"
  | interpreting statements => "Interpreting " ++ toString statements ++ " statements"
  | completed => "Interpretation completed successfully"
  | aborted e => "Interpretation aborted: " ++ e.text
  | variableDefined name => "Defining variable '" ++ name ++ "'"
  | functionDefined name => "Defining function '" ++ name ++ "'"
  | classDefined name => "Defining class '" ++ name ++ "'"
  | superFound method superclass line =>
    "Resolved super." ++ method ++ " in '" ++ superclass ++ "' at line " ++ toString line
  | depthLimit name => "Call depth limit reached calling '" ++ name ++ "'"
  | functionCalled name => "Calling user-defined function '" ++ name ++ "'"
  | nativeCalled name => "Calling native function '" ++ name ++ "'"
  | constructing name => "Constructing instance of '" ++ name ++ "'"
  | errorCreated e => creation e
  | tornDown scopes => "Interpreter dropped, cleared " ++ toString scopes ++ " scope(s)"

end Event

/-- The records of `events` that a reader at the given level sees. -/
def Event.shownAt (wanted : Level) (events : List Event) : List Event :=
  events.filter fun e => e.level.shownAt wanted

end Lox

import Lox.CommandLine
import Std.Time.DateTime.Timestamp

/-! The program: it reads files and input, and writes what the commands give. -/
namespace Lox
namespace CommandLine

/-- A clock that starts at the time of the system. -/
def systemClock : IO Clock := do
  let now ← Std.Time.Timestamp.now
  return .startingAt now.toMillisecondsSinceUnixEpoch.val.toNat

def readSource (file : String) : IO (Except ReadFailure String) := do
  try
    let bytes ← IO.FS.readBinFile file
    match String.fromUTF8? bytes with
    | some source => return .ok source
    | none => return .error .notText
  catch
    | .noFileOrDirectory .. => return .error .missing
    -- A directory can be opened and fails when it is read, where its name is no longer known.
    | .inappropriateType none .. => return .error .directory
    | .inappropriateType (some _) .. => return .error .notDirectory
    | e => return .error (.other (toString e))

/-- Write both streams of a command and give its exit code. -/
def conclude (t : Transcript) : IO UInt32 := do
  let out ← IO.getStdout
  let err ← IO.getStderr
  out.putStr t.out
  out.flush
  err.putStr t.err
  return t.exit.toUInt32

/-- Read and run lines until the input ends. -/
partial def promptLoop (s : Session) : IO Unit := do
  let input ← IO.getStdin
  let out ← IO.getStdout
  let err ← IO.getStderr
  out.putStr prompt
  out.flush
  let line ← input.getLine
  if line.isEmpty then out.putStr "\n"
  else
    let clock ← systemClock
    let s := { s with machine := { s.machine with clock := clock } }
    let (text,errors,s) := replLine Session.budget line s
    out.putStr text
    out.flush
    err.putStr errors
    promptLoop s

def start (command : Command) : IO UInt32 := do
  let clock ← systemClock
  let onFile (file : String) : IO UInt32 := do
    let source ← readSource file
    conclude (command.perform Session.budget clock (fun _ => source) "")
  match command with
  | .tokenize file _ | .parse file | .run file => onFile file
  | .repl =>
    promptLoop (.new .unlimited clock)
    return 0

end CommandLine
end Lox

def main (args : List String) : IO UInt32 := do
  match Lox.CommandLine.Command.ofArguments? args with
  | some command => Lox.CommandLine.start command
  | none =>
    IO.eprintln "Usage: lox [tokenize FILE [--json] | parse FILE | run FILE | repl]"
    return 2

import Lox.Error

/-! Where programs print to: a sequence of bytes that may stop accepting more. -/
namespace Lox

structure Output where
  /-- How many bytes are accepted in all, if there is a limit. -/
  limit : Option Nat
  flushFails : Bool
  written : ByteArray

namespace Output

def unlimited : Output := ⟨none,false,.empty⟩

/-- Write a text, or as many of its bytes as are still accepted. -/
def write (o : Output) (text : String) : Except OutputFault Unit × Output :=
  let bytes := text.toUTF8
  match o.limit with
  | none => (.ok (),{ o with written := o.written ++ bytes })
  | some limit =>
    let room := limit - o.written.size
    if bytes.size ≤ room then (.ok (),{ o with written := o.written ++ bytes })
    else (.error .limitReached,{ o with written := o.written ++ bytes.extract 0 room })

def flush (o : Output) : Except OutputFault Unit :=
  if o.flushFails then .error .flushFailed else .ok ()

/-- Bytes as text. A last character that was cut off is shown as one replacement character. -/
def decode (bytes : ByteArray) : String :=
  match String.fromUTF8? bytes with
  | some text => text
  | none =>
    let shorter := (List.range 4).findSome? fun n => String.fromUTF8? (bytes.extract 0 (bytes.size - n))
    shorter.getD "" ++ "\uFFFD"

/-- What was written after the first `mark` bytes. -/
def since (o : Output) (mark : Nat) : String := decode (o.written.extract mark o.written.size)

end Output
end Lox

import Jack.Text.Lines
import Jack.Text.Utf8

/-!
# Sources

A source is read line by line, and every line keeps the newline that ends it. A read can fail: a
line of bytes that are not UTF-8 is consumed and lost, and a reader can break down before the end
of a line, which is lost as well.
-/

namespace Jack

open Text

/-- The outcomes of the successive reads: a line, or the reason why there is none. -/
abbrev Source := List (Except String (List Char))

namespace Source

def ofLines (lines : List (List Char)) : Source := lines.map .ok

def ofChars (cs : List Char) : Source := ofLines (linesEnding (· = '\n') cs)

def ofString (text : String) : Source := ofChars text.toList

def decodeLine (bytes : List UInt8) : Except String (List Char) :=
  match String.fromUTF8? ⟨bytes.toArray⟩ with
  | some line => .ok line.toList
  | none => .error "stream did not contain valid UTF-8"

def ofBytes (bytes : ByteArray) : Source :=
  (linesEnding (· = 10) bytes.toList).map decodeLine

/-- The reads of a reader that delivers `room` more bytes and then breaks down. Lines that end
before that are delivered; without a newline, a last line has to be followed by the end. -/
def breakingAfter (reason : String) : Nat → List (List Char) → Source
  | room, [] => if room = 0 then [.error reason] else []
  | room, line :: lines =>
    let needed := byteSize line + if line.getLast? = some '\n' then 0 else 1
    if needed ≤ room then .ok line :: breakingAfter reason (room - byteSize line) lines
    else [.error reason]

/-- A text whose reader breaks down after `bytes` bytes. -/
def ofStringBreaking (reason : String) (bytes : Nat) (text : String) : Source :=
  breakingAfter reason bytes (linesEnding (· = '\n') text.toList)

end Source

end Jack

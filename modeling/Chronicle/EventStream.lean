import Chronicle.Json.Forms
import Chronicle.Json.Reader
import Chronicle.Text.Blank
import Chronicle.Text.Bytes

/-!
Streams of events: bytes in lines, with the JSON form of one event on each line. Blank lines and
comments carry no event, but every line counts for the numbers in messages. A bad line does not
disturb the lines behind it.
-/

namespace Chronicle

/-- A stream fails on a line that is no text or that holds no event. -/
inductive StreamError where
  | unreadable (line : Nat)
  | invalid (line : Nat)
  deriving DecidableEq

def StreamError.message : StreamError → String
  | .unreadable line => "Failed to read line " ++ toString line
  | .invalid line => "Invalid event on line " ++ toString line

namespace EventStream

/-- The byte that ends a line, and the byte that may stand before it. -/
def lineFeed : UInt8 := 10

def carriageReturn : UInt8 := 13

/-- A carriage return at the end of a line does not belong to it. -/
def dropReturn (line : List UInt8) : List UInt8 :=
  if line.getLast? = some carriageReturn then line.dropLast else line

/-- The lines of a stream, given the bytes of the current line in reverse. The last line may lack
its line feed, and is then kept whole. -/
def linesFrom : List UInt8 → List UInt8 → List (List UInt8)
  | [], [] => []
  | current, [] => [current.reverse]
  | current, byte :: rest =>
      if byte = lineFeed then dropReturn current.reverse :: linesFrom [] rest
      else linesFrom (byte :: current) rest

def lines (bytes : List UInt8) : List (List UInt8) := linesFrom [] bytes

/-- The characters of a line, if its bytes are a text. -/
def decodeLine (line : List UInt8) : Option (List Char) :=
  (Text.ofBytes line).map String.toList

/-- What a line yields: nothing, an event, or an error with the number of the line. -/
def readLine (number : Nat) (line : List UInt8) : Option (Except StreamError Event) :=
  match decodeLine line with
  | none => some (.error (.unreadable number))
  | some characters =>
      let content := Text.trim characters
      if content = [] ∨ content.head? = some '#' then none
      else
        match (Json.readChars content).bind Event.ofJson with
        | some event => some (.ok event)
        | none => some (.error (.invalid number))

/-- What all lines yield, in order; lines are numbered from one. -/
def read (bytes : List UInt8) : List (Except StreamError Event) :=
  ((lines bytes).zipIdx 1).filterMap fun entry => readLine entry.2 entry.1

end EventStream

end Chronicle

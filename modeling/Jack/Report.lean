import Jack.Error
import Jack.Text.Width

/-!
# Reports

A report shows an error in the line where it is: the line, a rule under the text that the error
names, and the message, hung from the middle of the rule. Places are counted in characters, which
are drawn as wide as a display shows them. An error without a place in the text is reported by its
message alone, except that the end of the source counts as its last character.
-/

namespace Jack.Report

open Text

/-! ## The line at fault -/

/-- Lines end at more characters here than they do for reading. -/
def isLineEnd (c : Char) : Bool :=
  c = '\n' || c = '\r' || c = '\x0b' || c = '\x0c' || c = '\u0085' || c = '\u2028' || c = '\u2029'

/-- Cuts after each line end, of which a carriage return and a newline make one. -/
def lines (text : List Char) : List (List Char) :=
  text.foldr (fun c lines =>
    match lines with
    | [] => [[c]]
    | line :: rest =>
      if isLineEnd c && !(c = '\r' && line.head? = some '\n') then [c] :: line :: rest
      else (c :: line) :: rest) []

/-- A part of a line that is pointed out, in columns. -/
structure Label where
  /-- The number of the line, from one. -/
  lineNumber : Nat
  /-- The line without the blanks at its end. -/
  text : List Char
  start : Nat
  stop : Nat
  /-- The column from which the message hangs. -/
  anchor : Nat

/-- The place of an error in bytes; without one, the last byte. -/
def place (source : List Char) (e : Error) : Span :=
  e.span?.getD ⟨byteSize source - 1, byteSize source⟩

/-- The range of characters that an error points out. -/
def charRange (source : List Char) (e : Error) : Nat × Nat :=
  (charOffset source (place source e).start, charOffset source (place source e).stop)

/-- The label of a range whose first character is looked for in the lines from the given one on,
which begins at the given character; the last line goes to the end. -/
def label? (start stop : Nat) (lineNumber lineStart : Nat) : List (List Char) → Option Label
  | [] => none
  | line :: rest =>
    if rest.isEmpty || start < lineStart + line.length then
      some
        { lineNumber
          text := trimEnd line
          start := start - lineStart
          stop := stop - lineStart
          anchor := (start + stop) / 2 - lineStart }
    else label? start stop (lineNumber + 1) (lineStart + line.length) rest

/-! ## Drawing -/

/-- The distance between tab stops. -/
def tabWidth : Nat := 4

/-- A character as it is drawn at a column. -/
def draw (column : Nat) (c : Char) : List Char :=
  if c = '\t' then List.replicate (tabWidth - column % tabWidth) ' '
  else if isBlank c then [' ']
  else [c]

def drawText (text : List Char) : List Char :=
  text.zipIdx.flatMap fun (c, column) => draw column c

/-- The number of cells that a column takes; past the text it is one. -/
def cellsOf (column : Nat) : Option Char → Nat
  | none => 1
  | some c =>
    if c = '\t' then tabWidth - column % tabWidth
    else if isBlank c then 1
    else displayWidth c

/-- Fills the cells of a column, the first in its own way. -/
def fill (cells : Nat) (first others : Char) : List Char :=
  match cells with
  | 0 => []
  | n + 1 => first :: List.replicate n others

/-- The columns of a line up to two past the label. -/
def columns (label : Label) : List (Option Char) :=
  let count := label.stop + 2
  (label.text.map some ++ List.replicate count none).take count

/-- Draws something in the cells of each column. -/
def drawColumns (label : Label) (mark : Nat → Char × Char) : List Char :=
  (columns label).zipIdx.flatMap fun (c, column) =>
    fill (cellsOf column c) (mark column).1 (mark column).2

def underline (label : Label) : List Char :=
  drawColumns label fun column =>
    let inside := label.start ≤ column ∧ column < label.stop
    if column = label.anchor then
      if inside then ('┬', '─') else ('│', ' ')
    else if inside then ('─', '─')
    else (' ', ' ')

def arrow (label : Label) : List Char :=
  drawColumns label fun column =>
    if column < label.anchor then (' ', ' ')
    else if column = label.anchor then ('╰', '─')
    else ('─', '─')

def excerpt (path message : String) (label : Label) : List String :=
  let number := label.lineNumber.repr
  let margin := String.ofList (List.replicate (number.length + 2) ' ')
  let rule := String.ofList (List.replicate (number.length + 2) '─')
  [margin ++ "╭─[" ++ path ++ ":" ++ number ++ ":" ++ (label.start + 1).repr ++ "]",
    margin ++ "│",
    " " ++ number ++ " │ " ++ String.ofList (drawText label.text),
    margin ++ "│ " ++ String.ofList (underline label),
    margin ++ "│ " ++ String.ofList (arrow label) ++ " " ++ message,
    rule ++ "╯"]

def heading (e : Error) : String := "Error: " ++ e.category.text ++ " error"

end Jack.Report

namespace Jack

open Report in
/-- The report about an error in a source. -/
def report (path source : String) (e : Error) : String :=
  if e.category = .input ∨ e.category = .output then e.message
  else
    let text := source.toList
    let (start, stop) := charRange text e
    let body := match label? start stop 1 0 (lines text) with
      | none => []
      | some label => excerpt path e.message label
    String.join ((heading e :: body).map (· ++ "\n"))

end Jack

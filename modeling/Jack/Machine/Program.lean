import Jack.Instruction.Parser
import Std.Data.HashMap

/-!
# Programs

A program is read from text, one instruction a line; blank lines do not count. It knows where each
function begins and where the labels of each function stand. Of two definitions of one name the
later one counts.
-/

namespace Jack.Machine

structure Program where
  code : Array Instruction
  /-- The addresses of the functions. -/
  functions : Std.HashMap String Nat
  /-- The addresses of the labels, by the function they stand in. -/
  labels : Std.HashMap (String × String) Nat

namespace Program

/-- What is known of a program read up to some address. -/
structure Index where
  address : Nat := 0
  function : String := ""
  functions : Std.HashMap String Nat := {}
  labels : Std.HashMap (String × String) Nat := {}

def Index.add (index : Index) (i : Instruction) : Index :=
  let next := { index with address := index.address + 1 }
  match i with
  | .function name _ =>
    { next with function := name, functions := next.functions.insert name index.address }
  | .label name => { next with labels := next.labels.insert (index.function, name) index.address }
  | _ => next

def ofInstructions (code : List Instruction) : Program :=
  let index := code.foldl Index.add {}
  { code := code.toArray, functions := index.functions, labels := index.labels }

/-- The lines of a text, without the blanks around them; blank lines are left out. -/
def lines (text : String) : List (List Char) :=
  ((text.toList.splitOnP (· = '\n')).map Text.trim).filter (!·.isEmpty)

/-- The first line that is no instruction is the error. -/
def instructions (text : String) : Except String (List Instruction) :=
  (lines text).mapM fun line =>
    match Instruction.ofLine? line with
    | some i => .ok i
    | none => .error (String.ofList line)

def ofText (text : String) : Except String Program := ofInstructions <$> instructions text

end Program

end Jack.Machine

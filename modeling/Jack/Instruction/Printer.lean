import Jack.Instruction.Basic

/-!
# The text of an instruction

An instruction is one line of words with single spaces between them, and a program is the lines of
its instructions, each ended by a newline.
-/

namespace Jack

def Segment.text : Segment → String
  | .locals => "local"
  | .arguments => "argument"
  | .statics => "static"
  | .constant => "constant"
  | .this => "this"
  | .that => "that"
  | .pointer => "pointer"
  | .temp => "temp"

def Command.text : Command → String
  | .add => "add"
  | .sub => "sub"
  | .neg => "neg"
  | .eq => "eq"
  | .gt => "gt"
  | .lt => "lt"
  | .and => "and"
  | .or => "or"
  | .not => "not"
  | .ret => "return"

namespace Instruction

/-- The words of the line. -/
def words : Instruction → List String
  | .push segment index => ["push", segment.text, index.repr]
  | .pop segment index => ["pop", segment.text, index.repr]
  | .command action => [action.text]
  | .label name => ["label", name]
  | .goto name => ["goto", name]
  | .ifGoto name => ["if-goto", name]
  | .function name localCount => ["function", name, localCount.repr]
  | .call name argumentCount => ["call", name, argumentCount.repr]

def text (i : Instruction) : String := " ".intercalate i.words

def line (i : Instruction) : String := i.text ++ "\n"

/-- The text of a program. -/
def listing (program : List Instruction) : String := String.join (program.map line)

end Instruction

end Jack

import Jack.Instruction.Printer
import Jack.Text.Decimal

/-!
# Reading an instruction

A line is an instruction if its words are, one by one and in number. The names of functions and
labels may be any words, also those of other instructions.
-/

namespace Jack

open Text

def Segment.all : List Segment :=
  [.locals, .arguments, .statics, .constant, .this, .that, .pointer, .temp]

def Segment.ofText? (word : String) : Option Segment := Segment.all.find? (·.text == word)

@[simp] theorem Segment.ofText?_text (s : Segment) : ofText? s.text = some s := by
  cases s <;> decide

def Command.all : List Command := [.add, .sub, .neg, .eq, .gt, .lt, .and, .or, .not, .ret]

def Command.ofText? (word : String) : Option Command := Command.all.find? (·.text == word)

@[simp] theorem Command.ofText?_text (c : Command) : ofText? c.text = some c := by
  cases c <;> decide

namespace Instruction

/-- The numbers an instruction can hold are below this one. -/
def indexBound : Nat := UInt64.size

def ofWords? : List String → Option Instruction
  | [action] => command <$> Command.ofText? action
  | [action, name] =>
    if action = "label" then some (.label name)
    else if action = "goto" then some (.goto name)
    else if action = "if-goto" then some (.ifGoto name)
    else none
  | [action, place, number] => do
    let index ← decimalBelow? indexBound number.toList
    if action = "push" then (push · index) <$> Segment.ofText? place
    else if action = "pop" then (pop · index) <$> Segment.ofText? place
    else if action = "function" then some (.function place index)
    else if action = "call" then some (.call place index)
    else none
  | _ => none

def ofLine? (line : List Char) : Option Instruction :=
  ofWords? ((Text.words line).map String.ofList)

def parse? (line : String) : Option Instruction := ofLine? line.toList

/-- The message about a line that is no instruction. -/
def invalidMessage (line : String) : String := s!"invalid VM instruction `{line}`"

end Instruction

end Jack

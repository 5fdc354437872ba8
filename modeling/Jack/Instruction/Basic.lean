/-!
# Instructions of the stack machine

A program is a list of instructions: moves between the stack and eight memory segments, commands
on the stack, jumps to labels, and calls of functions.
-/

namespace Jack

inductive Segment
  | locals | arguments | statics | constant | this | that | pointer | temp
  deriving DecidableEq, Repr, Inhabited

inductive Command
  | add | sub | neg | eq | gt | lt | and | or | not | ret
  deriving DecidableEq, Repr, Inhabited

inductive Instruction
  | push (segment : Segment) (index : Nat)
  | pop (segment : Segment) (index : Nat)
  | command (action : Command)
  | label (name : String)
  | goto (name : String)
  | ifGoto (name : String)
  /-- The entry of a function, which clears that many locals. -/
  | function (name : String) (localCount : Nat)
  | call (name : String) (argumentCount : Nat)
  deriving DecidableEq, Repr, Inhabited

end Jack

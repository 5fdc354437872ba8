import Jack.Instruction.Basic

/-!
# Routines of the operating system

The routines that compiled code calls by itself, with the number of arguments each takes.
-/

namespace Jack

inductive Routine
  | memoryAlloc
  | stringNew
  | stringAppendChar
  | mathMultiply
  | mathDivide
  deriving DecidableEq, Repr, Inhabited

namespace Routine

def text : Routine → String
  | memoryAlloc => "Memory.alloc"
  | stringNew => "String.new"
  | stringAppendChar => "String.appendChar"
  | mathMultiply => "Math.multiply"
  | mathDivide => "Math.divide"

def arity : Routine → Nat
  | memoryAlloc | stringNew => 1
  | stringAppendChar | mathMultiply | mathDivide => 2

def all : List Routine := [memoryAlloc, stringNew, stringAppendChar, mathMultiply, mathDivide]

def ofText? (name : String) : Option Routine := all.find? (·.text == name)

@[simp] theorem ofText?_text (r : Routine) : ofText? r.text = some r := by cases r <;> decide

def call (r : Routine) : Instruction := .call r.text r.arity

end Routine

end Jack

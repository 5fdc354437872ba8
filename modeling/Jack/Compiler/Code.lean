import Jack.Environment
import Jack.Routine

/-!
# Code fragments

The instructions of constants, of an access to an array element whose address is on the stack, and
of the beginning of a subroutine.
-/

namespace Jack.Compiler

def trueCode : List Instruction := [.push .constant 1, .command .neg]

/-- The code of `false` and of `null`. -/
def zeroCode : List Instruction := [.push .constant 0]

def appendCode (c : Char) : List Instruction :=
  [.push .constant c.toNat, Routine.stringAppendChar.call]

/-- Makes a string object with just the room it needs, and appends the characters. -/
def stringCode (content : List Char) : List Instruction :=
  [.push .constant content.length, Routine.stringNew.call] ++ content.flatMap appendCode

/-- Replaces the address on the stack by the element there. -/
def loadElement : List Instruction := [.pop .pointer 1, .push .that 0]

/-- Stores the value on the stack in the element whose address lies below it. Computing the value
may have moved `pointer 1`, which is therefore set last. -/
def storeElement : List Instruction :=
  [.pop .temp 0, .pop .pointer 1, .push .temp 0, .pop .that 0]

/-- Binds the current object: a constructor makes it, a method is passed it. -/
def bindObject (fieldCount : Nat) : Subroutine.Kind → List Instruction
  | .constructor =>
    [.push .constant fieldCount, Routine.memoryAlloc.call, .pop .pointer 0]
  | .method => [.push .arguments 0, .pop .pointer 0]
  | .function => []

def prologueCode (env : Environment) (kind : Subroutine.Kind) : List Instruction :=
  .function env.currentFunction (env.subroutineScope.count .localVar) ::
    bindObject (env.classScope.count .field) kind

end Jack.Compiler

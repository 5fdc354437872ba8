import Jack.Machine.Program

/-!
# The stack machine

A machine has 32768 cells of memory, each a 16-bit word. The first five are its registers, the
stack begins at 256 and the heap at 2048. The frames of the callers and the static variables are
kept outside the memory.

A computation that ends in a fault keeps the state in which the fault arose. What a machine of this
size cannot carry out, an access beyond the last cell or a stack pointer beyond the largest word, is
the fault `overrun`.
-/

namespace Jack.Machine

abbrev Word := Int16

inductive Fault
  | parse (line : String)
  | unknownFunction (name : String)
  | unknownLabel (label function : String)
  | invalidAddress (address : Int)
  | popConstant
  | divisionByZero
  | outOfMemory
  | stepLimit
  | overrun
  deriving DecidableEq, Repr

def ramSize : Nat := 32768
def stackBase : Nat := 256
def heapBase : Nat := 2048
def tempBase : Nat := 5
def pointerBase : Nat := 3

/-- The steps a run may take. -/
def stepLimit : Nat := 1000000

def Fault.message : Fault → String
  | parse line => Instruction.invalidMessage line
  | unknownFunction name => s!"unknown function `{name}`"
  | unknownLabel label function => s!"unknown label `{label}` in `{function}`"
  | invalidAddress address => s!"invalid address {address}"
  | popConstant => "cannot pop into the constant segment"
  | divisionByZero => "division by zero"
  | outOfMemory => "out of heap memory"
  | stepLimit => "program did not finish within " ++ Machine.stepLimit.repr ++ " steps"
  | overrun => "memory overrun"

/-- What a call saves of its caller. -/
structure Frame where
  /-- Where the caller goes on; none if the call came from outside. -/
  returnAddress : Option Nat
  function : String
  lcl : Word
  arg : Word
  this : Word
  that : Word
  deriving Repr

inductive Register
  | sp | lcl | arg | this | that
  deriving DecidableEq, Repr

def Register.address : Register → Nat
  | sp => 0
  | lcl => 1
  | arg => 2
  | this => 3
  | that => 4

end Machine

open Machine in
structure Machine where
  program : Program
  ram : Vector Word ramSize
  statics : Std.HashMap (String × Nat) Word := {}
  /-- The callers of the current function, the latest first. -/
  frames : List Frame := []
  /-- The current function. -/
  function : String := ""
  /-- The address of the next instruction. -/
  pc : Nat := 0
  /-- The first free cell of the heap. -/
  heapEnd : Nat := heapBase

namespace Machine

theorem Register.address_lt (r : Register) : r.address < ramSize := by cases r <;> decide

/-- The word of a number, or the largest word. -/
def saturate (n : Nat) : Word := Int16.ofNat (min n 32767)

/-- A machine before its first run. -/
def ofProgram (program : Program) : Machine :=
  { program
    ram := (Vector.replicate ramSize 0).setIfInBounds Register.sp.address (saturate stackBase) }

def load (text : String) : Except Fault Machine :=
  match Program.ofText text with
  | .ok program => .ok (ofProgram program)
  | .error line => .error (.parse line)

/-- A computation on a machine. -/
abbrev Exec := EStateM Fault Machine

/-! ## Memory -/

/-- The word in a cell. -/
def word (m : Machine) (address : Nat) : Word := m.ram[address]?.getD 0

/-- The machine with another word in a cell. -/
def put (m : Machine) (address : Nat) (value : Word) : Machine :=
  { m with ram := m.ram.setIfInBounds address value }

theorem word_put {address : Nat} (m : Machine) (other : Nat) (value : Word)
    (h : address < ramSize) :
    (m.put address value).word other = if address = other then value else m.word other := by
  simp only [word, put, Vector.getElem?_setIfInBounds, h, if_true]
  split <;> rfl

def cell (address : Nat) : Exec Word := do
  if address < ramSize then return (← get).word address else throw .overrun

def setCell (address : Nat) (value : Word) : Exec Unit :=
  if address < ramSize then modify (·.put address value) else throw .overrun

def register (r : Register) : Exec Word := cell r.address

def setRegister (r : Register) (value : Word) : Exec Unit := setCell r.address value

/-- The address that a word denotes. -/
def address (word : Word) : Exec Nat :=
  if word < 0 then throw (.invalidAddress word.toInt) else return word.toNatClampNeg

/-! ## The stack -/

def push (value : Word) : Exec Unit := do
  let sp ← register .sp
  setCell sp.toInt.natAbs value
  if sp = 32767 then throw .overrun
  setRegister .sp (sp + 1)

def pop : Exec Word := do
  let sp ← register .sp
  if sp = -32768 then throw .overrun
  let top ← address (sp - 1)
  setRegister .sp (saturate top)
  cell top

/-! ## Segments -/

/-- The class of the current function, which its static variables belong to. -/
def className (m : Machine) : String :=
  String.ofList (m.function.toList.takeWhile (· ≠ '.'))

/-- Where an element of a segment is kept. -/
inductive Place
  | constant (value : Nat)
  | staticVar (className : String) (index : Nat)
  | memory (address : Nat)

def locate (index : Nat) : Segment → Exec Place
  | .constant => return .constant index
  | .statics => return .staticVar (← get).className index
  | .locals => return .memory ((← address (← register .lcl)) + index)
  | .arguments => return .memory ((← address (← register .arg)) + index)
  | .this => return .memory ((← address (← register .this)) + index)
  | .that => return .memory ((← address (← register .that)) + index)
  | .pointer => return .memory (pointerBase + index)
  | .temp => return .memory (tempBase + index)

def readElement (segment : Segment) (index : Nat) : Exec Word := do
  match ← locate index segment with
  | .constant value => return saturate value
  | .staticVar className index => return (← get).statics.getD (className, index) 0
  | .memory address => cell address

def writeElement (segment : Segment) (index : Nat) (value : Word) : Exec Unit := do
  match ← locate index segment with
  | .constant _ => throw .popConstant
  | .staticVar className index =>
    modify fun m => { m with statics := m.statics.insert (className, index) value }
  | .memory address => setCell address value

end Jack.Machine

import Jack.Machine.State
import Jack.Routine

/-!
# Running instructions

A call pushes the caller's registers onto the frames and lets the locals begin where the stack
stands; a return leaves the value where the arguments were. Calls of the operating system's routines
are carried out in place, if the number of arguments fits; any other call enters a function.
-/

namespace Jack.Machine

/-! ## Calls -/

def enterFunction (name : String) (argumentCount : Nat) (returnAddress : Option Nat) :
    Exec Unit := do
  let m ← get
  match m.program.functions[name]? with
  | none => throw (.unknownFunction name)
  | some entry =>
    let frame : Frame :=
      { returnAddress
        function := m.function
        lcl := ← register .lcl
        arg := ← register .arg
        this := ← register .this
        that := ← register .that }
    modify fun m => { m with frames := frame :: m.frames, function := name }
    let sp ← register .sp
    setRegister .arg (sp - saturate argumentCount)
    setRegister .lcl sp
    modify fun m => { m with pc := entry }

/-- Takes the latest frame off. -/
def popFrame : Exec Frame := do
  let m ← get
  match m.frames with
  | [] => throw (.unknownFunction m.function)
  | frame :: frames =>
    set { m with frames }
    return frame

/-- Returns to the caller, or with the value if the call came from outside. -/
def leaveFunction : Exec (Option Word) := do
  let value ← pop
  let frame ← popFrame
  let arg ← address (← register .arg)
  setCell arg value
  setRegister .sp (saturate (arg + 1))
  setRegister .lcl frame.lcl
  setRegister .arg frame.arg
  setRegister .this frame.this
  setRegister .that frame.that
  modify fun m => { m with function := frame.function }
  match frame.returnAddress with
  | some pc =>
    modify fun m => { m with pc }
    return none
  | none => return some value

/-! ## Routines of the operating system -/

/-- Takes a block of cells from the heap. -/
def reserve (size : Word) : Exec Word := do
  let count ← address size
  let start := (← get).heapEnd
  modify fun m => { m with heapEnd := m.heapEnd + count }
  if ramSize ≤ start + count then throw .outOfMemory
  return saturate start

/-- A string is its length, then the codes of its characters. -/
def newString (capacity : Word) : Exec Word := do
  let string ← reserve (if capacity = 32767 then 32767 else capacity + 1)
  setCell (← address string) 0
  return string

def appendChar (string c : Word) : Exec Word := do
  let base ← address string
  let length ← address (← cell base)
  setCell (base + length + 1) c
  setCell base ((← cell base) + 1)
  return string

def divide (a b : Word) : Exec Word :=
  if b = 0 ∨ (a = -32768 ∧ b = -1) then throw .divisionByZero else return a / b

def routineOf? (name : String) : Option Routine :=
  if name = "Array.new" then some .memoryAlloc else Routine.ofText? name

/-- The value of a routine; none if it takes another number of arguments. -/
def runRoutine : Routine → List Word → Exec (Option Word)
  | .memoryAlloc, [size] => some <$> reserve size
  | .stringNew, [capacity] => some <$> newString capacity
  | .stringAppendChar, [string, c] => some <$> appendChar string c
  | .mathMultiply, [a, b] => return some (a * b)
  | .mathDivide, [a, b] => some <$> divide a b
  | _, _ => return none

/-- The cells from an address on. -/
def cells (start : Nat) : Nat → Exec (List Word)
  | 0 => return []
  | count + 1 => return (← cell start) :: (← cells (start + 1) count)

def call (name : String) (argumentCount : Nat) : Exec Unit := do
  let top ← address (← register .sp)
  if top < argumentCount then throw (.invalidAddress (-1))
  let first := top - argumentCount
  let result ← match routineOf? name with
    | some routine => runRoutine routine (← cells first argumentCount)
    | none => pure none
  match result with
  | some value =>
    setRegister .sp (saturate first)
    push value
  | none => enterFunction name argumentCount (some (← get).pc)

/-! ## Commands and jumps -/

def wordOfBool (condition : Bool) : Word := if condition then -1 else 0

theorem wordOfBool_decide (p : Prop) [Decidable p] : wordOfBool p = if p then -1 else 0 := by
  simp only [wordOfBool, decide_eq_true_eq]

def unary (f : Word → Word) : Exec Unit := do
  let a ← pop
  push (f a)

def binary (f : Word → Word → Word) : Exec Unit := do
  let b ← pop
  let a ← pop
  push (f a b)

def runCommand : Command → Exec (Option Word)
  | .ret => leaveFunction
  | .neg => do unary (- ·); return none
  | .not => do unary (~~~ ·); return none
  | .add => do binary (· + ·); return none
  | .sub => do binary (· - ·); return none
  | .and => do binary (· &&& ·); return none
  | .or => do binary (· ||| ·); return none
  | .eq => do binary fun a b => wordOfBool (a = b); return none
  | .gt => do binary fun a b => wordOfBool (b < a); return none
  | .lt => do binary fun a b => wordOfBool (a < b); return none

def jumpTo (label : String) : Exec Unit := do
  let m ← get
  match m.program.labels[(m.function, label)]? with
  | some pc => set { m with pc }
  | none => throw (.unknownLabel label m.function)

/-- Pushes the locals of a function, which are zero at first. -/
def pushLocals : Nat → Exec Unit
  | 0 => return
  | count + 1 => do
    push 0
    pushLocals count

/-- The instruction at hand; the machine moves on to the next one. -/
def fetch : Exec Instruction := do
  let m ← get
  match m.program.code[m.pc]? with
  | some i =>
    set { m with pc := m.pc + 1 }
    return i
  | none => throw (.unknownFunction m.function)

/-- Carries out one instruction; a value if it returned from the run's first function. -/
def step : Exec (Option Word) := do
  match ← fetch with
  | .push segment index =>
    push (← readElement segment index)
    return none
  | .pop segment index =>
    writeElement segment index (← pop)
    return none
  | .command action => runCommand action
  | .label _ => return none
  | .goto label =>
    jumpTo label
    return none
  | .ifGoto label =>
    if (← pop) ≠ 0 then jumpTo label
    return none
  | .function _ localCount =>
    pushLocals localCount
    return none
  | .call name argumentCount =>
    call name argumentCount
    return none

/-- Carries out instructions until the run's first function returns. -/
def steps : Nat → Exec Word
  | 0 => throw .stepLimit
  | limit + 1 => do
    match ← step with
    | some value => return value
    | none => steps limit

/-- Calls a function without arguments from outside. -/
def run (entry : String) : Exec Word := do
  enterFunction entry 0 none
  steps stepLimit

/-- Reads a string object. -/
def stringAt (string : Word) : Exec String := do
  let base ← address string
  let length ← address (← cell base)
  let codes ← cells (base + 1) length
  return String.ofList ((codes.filter (0 ≤ ·)).map fun code => Char.ofNat code.toNatClampNeg)

end Jack.Machine

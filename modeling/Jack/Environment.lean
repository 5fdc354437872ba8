import Jack.Scope
import Jack.Token

/-!
# The environment of a class

What is known while a class is compiled: its name and the subroutine at hand, the symbols of both,
and how many `if` and `while` statements the class has had so far. Those two numbers are never set
back, so a label belongs to one statement of the class.
-/

namespace Jack

namespace Subroutine

inductive Kind
  | constructor | function | method
  deriving DecidableEq, Repr, Inhabited

namespace Kind

def text : Kind → String
  | constructor => "constructor"
  | function => "function"
  | method => "method"

def ofKeyword? : Keyword → Option Kind
  | .constructorKeyword => some constructor
  | .functionKeyword => some function
  | .methodKeyword => some method
  | _ => none

end Kind

end Subroutine

structure Subroutine where
  name : String
  kind : Subroutine.Kind
  deriving DecidableEq, Repr, Inhabited

/-- The labels of an `if` statement. -/
structure BranchLabels where
  otherwise : String
  done : String
  deriving DecidableEq, Repr

/-- The labels of a `while` statement. -/
structure LoopLabels where
  again : String
  done : String
  deriving DecidableEq, Repr

def BranchLabels.numbered (n : Nat) : BranchLabels := ⟨"IF_FALSE" ++ n.repr, "IF_END" ++ n.repr⟩

def LoopLabels.numbered (n : Nat) : LoopLabels := ⟨"WHILE_EXP" ++ n.repr, "WHILE_END" ++ n.repr⟩

structure Environment where
  className : String := ""
  subroutine : Option Subroutine := none
  /-- Statics and fields. -/
  classScope : Scope := {}
  /-- Arguments and locals. -/
  subroutineScope : Scope := {}
  ifCount : Nat := 0
  whileCount : Nat := 0
  deriving DecidableEq, Repr, Inhabited

namespace Environment

def beginClass (env : Environment) (name : String) : Environment :=
  { env with className := name, classScope := .empty }

/-- A method has the object it is called on as its first argument, under the name `this`. -/
def beginSubroutine (env : Environment) (name : String) (kind : Subroutine.Kind) : Environment :=
  { env with
    subroutine := some ⟨name, kind⟩
    subroutineScope :=
      if kind = .method then Scope.empty.define Keyword.thisKeyword.text env.className .argument
      else .empty }

/-- The meaning of a name: that of the subroutine hides that of the class. -/
def find? (env : Environment) (name : String) : Option Symbol :=
  (env.subroutineScope.lookup name).or (env.classScope.lookup name)

/-- The name under which a subroutine of this class is called. -/
def qualify (env : Environment) (name : String) : String := env.className ++ "." ++ name

def currentFunction (env : Environment) : String :=
  env.qualify ((env.subroutine.map (·.name)).getD "")

def scopeOf (env : Environment) : Symbol.Kind → Scope
  | .staticVar | .field => env.classScope
  | .argument | .localVar => env.subroutineScope

def define (env : Environment) (name typeName : String) (kind : Symbol.Kind) : Environment :=
  match kind with
  | .staticVar | .field => { env with classScope := env.classScope.define name typeName kind }
  | .argument | .localVar =>
    { env with subroutineScope := env.subroutineScope.define name typeName kind }

def takeBranchLabels (env : Environment) : BranchLabels × Environment :=
  (.numbered env.ifCount, { env with ifCount := env.ifCount + 1 })

def takeLoopLabels (env : Environment) : LoopLabels × Environment :=
  (.numbered env.whileCount, { env with whileCount := env.whileCount + 1 })

/-- The current object: the implicit argument of a method, else what `this` is bound to. -/
def currentObject (env : Environment) : Instruction :=
  match env.find? Keyword.thisKeyword.text with
  | some symbol => symbol.push
  | none => .push .pointer 0

end Environment

end Jack

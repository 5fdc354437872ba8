import Jack.Compiler.Code
import Jack.Compiler.State
import Jack.Sink

/-!
# Goals

What is still to be compiled is an agenda, a list of goals. A goal is a part of the grammar to be
read, or output to be made once everything before it has been read.

The weight of a goal bounds the steps it leads to before the next token is taken, and `potential`
the steps of a whole agenda on the tokens that are left.
-/

namespace Jack.Compiler

inductive Goal
  | emit (code : List Instruction)
  | note (remark : Remark)
  | symbol (c : Char)
  | classDeclaration
  | className
  | classVariables
  | subroutines
  | returnType
  | subroutineName (kind : Subroutine.Kind)
  | parameters
  | parameter
  | parameterName (typeName : String)
  | moreParameters
  | localVariables
  | variableType (kind : Symbol.Kind)
  | variableName (kind : Symbol.Kind) (typeName : String)
  | moreVariables (kind : Symbol.Kind) (typeName : String)
  | prologue (kind : Subroutine.Kind)
  | statements
  | letTarget
  | assignment (target : Symbol)
  | elseBranch
  | doCall
  | returnValue
  | expression
  | operators
  | term
  /-- What a term that begins with a name turns out to be. -/
  | named (name : String) (span : Span)
  | call (name : String) (span : Span)
  | qualifiedCall (name : String) (span : Span)
  /-- The arguments of a call, of which some may be on the stack already. -/
  | arguments (function : String) (count : Nat)
  | argumentList (function : String) (count : Nat)
  | moreArguments (function : String) (count : Nat)
  | endOfClass

namespace Goal

/-! ## Parts of the grammar that recur or are long -/

def block : List Goal := [symbol '{', statements, symbol '}']

/-- A condition, whose negation is left on the stack. -/
def condition : List Goal :=
  [symbol '(', expression, symbol ')', emit [.command .not]]

/-- An index in brackets, which turns the base on the stack into the element's address. -/
def index (base : Symbol) : List Goal :=
  [emit [base.push], symbol '[', expression, symbol ']', emit [.command .add]]

/-- The end of a call, behind its arguments. -/
def closeCall (function : String) (count : Nat) : List Goal :=
  [symbol ')', emit [.call function count]]

def ifStatement (labels : BranchLabels) : List Goal :=
  condition ++ [emit [.ifGoto labels.otherwise]] ++ block ++
    [emit [.goto labels.done, .label labels.otherwise], elseBranch, emit [.label labels.done]]

def whileStatement (labels : LoopLabels) : List Goal :=
  [emit [.label labels.again]] ++ condition ++ [emit [.ifGoto labels.done]] ++ block ++
    [emit [.goto labels.again, .label labels.done]]

end Goal

/-! ## The work that is left -/

def Goal.weight : Goal → Nat
  | .assignment _ => 14
  | .named .. => 9
  | .argumentList .. => 7
  | .returnValue => 4
  | .expression | .call .. | .moreArguments .. => 3
  | .parameters | .prologue _ => 2
  | _ => 1

/-- More than the goals that a step leaves once it has taken a token. -/
def tokenWeight : Nat := 16

/-- The weight of all goals of an agenda. -/
def totalWeight (agenda : List Goal) : Nat := agenda.foldr (·.weight + ·) 0

@[simp] theorem totalWeight_nil : totalWeight [] = 0 := rfl

@[simp] theorem totalWeight_cons (goal : Goal) (agenda : List Goal) :
    totalWeight (goal :: agenda) = goal.weight + totalWeight agenda := rfl

@[simp] theorem totalWeight_append (agenda agenda' : List Goal) :
    totalWeight (agenda ++ agenda') = totalWeight agenda + totalWeight agenda' := by
  induction agenda with
  | nil => simp
  | cons goal agenda ih => simp only [List.cons_append, totalWeight_cons, ih, Nat.add_assoc]

def potential (agenda : List Goal) (s : State) : Nat :=
  totalWeight agenda + tokenWeight * s.input.tokens.length

end Jack.Compiler

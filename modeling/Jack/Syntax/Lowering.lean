import Jack.Compiler.Code
import Jack.Syntax.Scoping

/-!
# Lowering trees to code

`code` gives the instructions of a phrase under the bindings of its subroutine. An `if` or `while`
statement is numbered by how many of its sort begin before it in the class; a phrase is lowered with
the two numbers that it starts from.
-/

namespace Jack.Syntax

open Compiler

/-! ## Counting statements -/

mutual

def Statement.ifs : Statement → Nat
  | .conditional _ body => body.ifs + 1
  | .alternative _ body otherwise => body.ifs + otherwise.ifs + 1
  | .loop _ body => body.ifs
  | _ => 0

def Block.ifs : Block → Nat
  | .nil => 0
  | .cons first rest => first.ifs + rest.ifs

end

mutual

def Statement.whiles : Statement → Nat
  | .conditional _ body => body.whiles
  | .alternative _ body otherwise => body.whiles + otherwise.whiles
  | .loop _ body => body.whiles + 1
  | _ => 0

def Block.whiles : Block → Nat
  | .nil => 0
  | .cons first rest => first.whiles + rest.whiles

end

/-! ## Expressions -/

namespace Bindings

def read (b : Bindings) (name : String) : List Instruction :=
  ((b.resolve name).map (·.push)).toList

def write (b : Bindings) (name : String) : List Instruction :=
  ((b.resolve name).map (·.pop)).toList

/-- The current object. -/
def this (b : Bindings) : Instruction :=
  if b.kind = .method then .push .arguments 0 else .push .pointer 0

end Bindings

def UnaryOperator.instruction : UnaryOperator → Instruction
  | negate => .command .neg
  | complement => .command .not

mutual

def Term.code (b : Bindings) : Term → List Instruction
  | .integer value => [.push .constant value]
  | .string content => stringCode content.toList
  | .true => trueCode
  | .false => zeroCode
  | .null => zeroCode
  | .this => [b.this]
  | .group e => e.code b
  | .unary op t => t.code b ++ [op.instruction]
  | .variable name => b.read name
  | .element array index => b.read array ++ index.code b ++ [.command .add] ++ loadElement
  | .call c => c.code b

def Expression.code (b : Bindings) : Expression → List Instruction
  | .term t => t.code b
  | .operation left op right => left.code b ++ right.code b ++ [op.instruction]

def Call.code (b : Bindings) : Call → List Instruction
  | .own name arguments =>
    b.this :: arguments.code b ++ [.call (b.className ++ "." ++ name) (arguments.length + 1)]
  | .qualified qualifier name arguments =>
    match b.resolve qualifier with
    | some s =>
      s.push :: arguments.code b ++ [.call (s.typeName ++ "." ++ name) (arguments.length + 1)]
    | none => arguments.code b ++ [.call (qualifier ++ "." ++ name) arguments.length]

def Arguments.code (b : Bindings) : Arguments → List Instruction
  | .nil => []
  | .cons first rest => first.code b ++ rest.code b

end

/-! ## Statements -/

def ifCode (labels : BranchLabels) (condition body otherwise : List Instruction) :
    List Instruction :=
  condition ++ [.command .not, .ifGoto labels.otherwise] ++ body ++
    [.goto labels.done, .label labels.otherwise] ++ otherwise ++ [.label labels.done]

def whileCode (labels : LoopLabels) (condition body : List Instruction) : List Instruction :=
  .label labels.again :: condition ++ [.command .not, .ifGoto labels.done] ++ body ++
    [.goto labels.again, .label labels.done]

mutual

/-- The code of a statement before which `i` statements `if` and `w` statements `while` begin. -/
def Statement.code (b : Bindings) (i w : Nat) : Statement → List Instruction
  | .assign name value => value.code b ++ b.write name
  | .assignElement array index value =>
    b.read array ++ index.code b ++ [.command .add] ++ value.code b ++ storeElement
  | .conditional condition body =>
    ifCode (.numbered i) (condition.code b) (body.code b (i + 1) w) []
  | .alternative condition body otherwise =>
    ifCode (.numbered i) (condition.code b) (body.code b (i + 1) w)
      (otherwise.code b (i + 1 + body.ifs) (w + body.whiles))
  | .loop condition body =>
    whileCode (.numbered w) (condition.code b) (body.code b i (w + 1))
  | .call c => c.code b ++ [.pop .temp 0]
  | .giveBack none => [.command .ret]
  | .giveBack (some value) => value.code b ++ [.command .ret]

def Block.code (b : Bindings) (i w : Nat) : Block → List Instruction
  | .nil => []
  | .cons first rest => first.code b i w ++ rest.code b (i + first.ifs) (w + first.whiles)

end

/-! ## Declarations -/

def SubroutineDeclaration.code (c : ClassDeclaration) (i w : Nat) (d : SubroutineDeclaration) :
    List Instruction :=
  .function (c.name ++ "." ++ d.name) (d.locals.flatMap (·.names)).length ::
    bindObject (c.declared.countP (·.kind = .field)) d.kind ++ d.body.code (bindings c d) i w

def subroutinesCode (c : ClassDeclaration) (i w : Nat) :
    List SubroutineDeclaration → List Instruction
  | [] => []
  | d :: rest =>
    d.code c i w ++ subroutinesCode c (i + d.body.ifs) (w + d.body.whiles) rest

def ClassDeclaration.code (c : ClassDeclaration) : List Instruction :=
  subroutinesCode c 0 0 c.subroutines

end Jack.Syntax

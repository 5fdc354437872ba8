import Jack.Environment
import Jack.Operator

/-!
# Syntax trees of a class

The grammar of classes, one constructor for each way to write a phrase. An expression is a chain of
terms which its operators combine from the left.
-/

namespace Jack.Syntax

/-- A type of variables. -/
inductive VariableType
  | int | char | boolean
  | object (className : String)
  deriving DecidableEq, Repr, Inhabited

inductive UnaryOperator
  | negate | complement
  deriving DecidableEq, Repr, Inhabited

mutual

inductive Term
  | integer (value : Nat)
  | string (content : String)
  | true | false | null | this
  | group (e : Expression)
  | unary (op : UnaryOperator) (t : Term)
  | variable (name : String)
  | element (array : String) (index : Expression)
  | call (c : Call)

inductive Expression
  | term (t : Term)
  | operation (left : Expression) (op : Operator) (right : Term)

inductive Call
  /-- A method of the current object. -/
  | own (name : String) (arguments : Arguments)
  /-- A method of the object in a variable, or a subroutine of a class. -/
  | qualified (qualifier name : String) (arguments : Arguments)

inductive Arguments
  | nil
  | cons (first : Expression) (rest : Arguments)

end

mutual

inductive Statement
  | assign (name : String) (value : Expression)
  | assignElement (array : String) (index value : Expression)
  | conditional (condition : Expression) (body : Block)
  | alternative (condition : Expression) (body otherwise : Block)
  | loop (condition : Expression) (body : Block)
  | call (c : Call)
  | giveBack (value : Option Expression)

inductive Block
  | nil
  | cons (first : Statement) (rest : Block)

end

/-- The declaration of one or more variables of a type. -/
structure Variables where
  type : VariableType
  first : String
  others : List String
  deriving DecidableEq, Repr

structure Parameter where
  type : VariableType
  name : String
  deriving DecidableEq, Repr

structure SubroutineDeclaration where
  kind : Subroutine.Kind
  /-- None for `void`. -/
  returnType : Option VariableType
  name : String
  parameters : List Parameter
  locals : List Variables
  body : Block

/-- The variables that a class or each of its objects has. -/
inductive Ownership
  | ofClass | ofObject
  deriving DecidableEq, Repr

structure ClassVariables where
  ownership : Ownership
  declaration : Variables
  deriving DecidableEq, Repr

structure ClassDeclaration where
  name : String
  declarations : List ClassVariables
  subroutines : List SubroutineDeclaration

def VariableType.text : VariableType → String
  | int => Keyword.intKeyword.text
  | char => Keyword.charKeyword.text
  | boolean => Keyword.booleanKeyword.text
  | object className => className

def Ownership.kind : Ownership → Symbol.Kind
  | ofClass => .staticVar
  | ofObject => .field

def Ownership.keyword : Ownership → Keyword
  | ofClass => .staticKeyword
  | ofObject => .fieldKeyword

def Variables.names (v : Variables) : List String := v.first :: v.others

def Arguments.length : Arguments → Nat
  | .nil => 0
  | .cons _ rest => rest.length + 1

end Jack.Syntax

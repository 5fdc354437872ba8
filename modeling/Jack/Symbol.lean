import Jack.Instruction.Basic

/-!
# Symbols

A variable lives in the segment of its kind, at its own index there.
-/

namespace Jack

namespace Symbol

inductive Kind
  | staticVar | field | argument | localVar
  deriving DecidableEq, Repr, Inhabited

def Kind.segment : Kind → Segment
  | .staticVar => .statics
  | .field => .this
  | .argument => .arguments
  | .localVar => .locals

end Symbol

structure Symbol where
  name : String
  typeName : String
  kind : Symbol.Kind
  index : Nat
  deriving DecidableEq, Repr, Inhabited

namespace Symbol

def push (s : Symbol) : Instruction := .push s.kind.segment s.index

def pop (s : Symbol) : Instruction := .pop s.kind.segment s.index

end Symbol

end Jack

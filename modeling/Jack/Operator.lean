import Jack.Routine
import Jack.Token

/-!
# Operators

Every binary operator is one instruction on two operands: a command of the machine, or, for `*` and
`/`, the call of a routine. All have the same precedence.
-/

namespace Jack

inductive Operator
  | add | subtract | multiply | divide | and | or | less | greater | equal
  deriving DecidableEq, Repr, Inhabited

namespace Operator

def symbol : Operator → Char
  | add => '+'
  | subtract => '-'
  | multiply => '*'
  | divide => '/'
  | and => '&'
  | or => '|'
  | less => '<'
  | greater => '>'
  | equal => '='

def all : List Operator := [add, subtract, multiply, divide, and, or, less, greater, equal]

def ofSymbol? (c : Char) : Option Operator := all.find? (·.symbol == c)

@[simp] theorem ofSymbol?_symbol (op : Operator) : ofSymbol? op.symbol = some op := by
  cases op <;> decide

theorem symbol_injective {op op' : Operator} (h : op.symbol = op'.symbol) : op = op' :=
  Option.some.inj (by rw [← ofSymbol?_symbol op, h, ofSymbol?_symbol])

theorem symbol_of_ofSymbol? {c : Char} {op : Operator} (h : ofSymbol? c = some op) :
    op.symbol = c := by
  simpa using List.find?_some h

def instruction : Operator → Instruction
  | add => .command .add
  | subtract => .command .sub
  | multiply => Routine.mathMultiply.call
  | divide => Routine.mathDivide.call
  | and => .command .and
  | or => .command .or
  | less => .command .lt
  | greater => .command .gt
  | equal => .command .eq

end Operator

end Jack

import Jack.Syntax.Lowering

/-!
# Code depends on what names mean

Two bindings that agree on the class, the kind of the subroutine and the meaning of every name give
the same code, in whatever order they hold the variables.
-/

namespace Jack.Syntax

/-- The bindings cannot be told apart by looking names up. -/
structure Bindings.Agree (b b' : Bindings) : Prop where
  className : b.className = b'.className
  kind : b.kind = b'.kind
  resolve : ∀ name, b.resolve name = b'.resolve name

namespace Bindings.Agree

variable {b b' : Bindings}

theorem this (h : b.Agree b') : b.this = b'.this := by rw [Bindings.this, h.kind, Bindings.this]

theorem read (h : b.Agree b') (name : String) : b.read name = b'.read name := by
  rw [Bindings.read, h.resolve, Bindings.read]

theorem write (h : b.Agree b') (name : String) : b.write name = b'.write name := by
  rw [Bindings.write, h.resolve, Bindings.write]

theorem declares (h : b.Agree b') (name : String) : b.Declares name ↔ b'.Declares name := by
  rw [Declares, h.resolve, Declares]

theorem qualifies (h : b.Agree b') (name : String) : b.Qualifies name ↔ b'.Qualifies name := by
  rw [Qualifies, h.resolve, Qualifies]

mutual

theorem term_code (h : b.Agree b') : ∀ t : Term, t.code b = t.code b'
  | .integer _ | .string _ | .true | .false | .null => rfl
  | .this => by rw [Term.code, h.this, Term.code]
  | .group e => by rw [Term.code, h.expression_code e, Term.code]
  | .unary _ t => by rw [Term.code, h.term_code t, Term.code]
  | .variable name => by rw [Term.code, h.read, Term.code]
  | .element array index => by rw [Term.code, h.read, h.expression_code index, Term.code]
  | .call cl => by rw [Term.code, h.call_code cl, Term.code]

theorem expression_code (h : b.Agree b') : ∀ e : Expression, e.code b = e.code b'
  | .term t => by rw [Expression.code, h.term_code t, Expression.code]
  | .operation left _ right => by
    rw [Expression.code, h.expression_code left, h.term_code right, Expression.code]

theorem call_code (h : b.Agree b') : ∀ cl : Call, cl.code b = cl.code b'
  | .own _ args => by
    rw [Call.code, h.this, h.className, h.arguments_code args, Call.code]
  | .qualified _ _ args => by
    rw [Call.code, h.resolve, h.arguments_code args, Call.code]

theorem arguments_code (h : b.Agree b') : ∀ args : Arguments, args.code b = args.code b'
  | .nil => rfl
  | .cons first rest => by
    rw [Arguments.code, h.expression_code first, h.arguments_code rest, Arguments.code]

end

mutual

theorem statement_code (h : b.Agree b') (i w : Nat) : ∀ st : Statement, st.code b i w = st.code b' i w
  | .assign _ value => by rw [Statement.code, h.expression_code, h.write, Statement.code]
  | .assignElement _ index value => by
    rw [Statement.code, h.read, h.expression_code index, h.expression_code value, Statement.code]
  | .conditional condition body => by
    rw [Statement.code, h.expression_code condition, h.block_code _ _ body, Statement.code]
  | .alternative condition body otherwise => by
    rw [Statement.code, h.expression_code condition, h.block_code _ _ body,
      h.block_code _ _ otherwise, Statement.code]
  | .loop condition body => by
    rw [Statement.code, h.expression_code condition, h.block_code _ _ body, Statement.code]
  | .call cl => by rw [Statement.code, h.call_code cl, Statement.code]
  | .giveBack none => rfl
  | .giveBack (some value) => by rw [Statement.code, h.expression_code value, Statement.code]

theorem block_code (h : b.Agree b') (i w : Nat) : ∀ body : Block, body.code b i w = body.code b' i w
  | .nil => rfl
  | .cons first rest => by
    rw [Block.code, h.statement_code _ _ first, h.block_code _ _ rest, Block.code]

end

end Bindings.Agree

end Jack.Syntax

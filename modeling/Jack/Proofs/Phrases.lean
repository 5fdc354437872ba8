import Jack.Syntax.Lowering
import Jack.Syntax.Written

/-!
# How a phrase is read

The compiler reads an expression as a first term and a chain of operators with their terms, and an
argument list as a first argument and the ones behind commas. A phrase that ends in a variable
(`endsInName`), or in an `if` statement without `else` (`endsInIf`), could go on with the token
behind it.
-/

namespace Jack

namespace Syntax

open Token (Kind)

/-! ## Chains -/

/-- The operators behind the first term of an expression, each with its right operand. -/
abbrev Chain := List (Operator × Term)

namespace Chain

def tokens (chain : Chain) : List Kind :=
  chain.flatMap fun (op, t) => .symbol op.symbol :: t.tokens

def code (b : Bindings) (chain : Chain) : List Instruction :=
  chain.flatMap fun (op, t) => t.code b ++ [op.instruction]

def mentions (chain : Chain) : List String := chain.flatMap (·.2.mentions)

def qualifiers (chain : Chain) : List String := chain.flatMap (·.2.qualifiers)

end Chain

def Expression.ofChain (first : Expression) (chain : Chain) : Expression :=
  chain.foldl (fun left (op, t) => .operation left op t) first

section ofChain

variable (first : Expression) (chain : Chain)

theorem Expression.tokens_ofChain : (ofChain first chain).tokens = first.tokens ++ chain.tokens := by
  induction chain generalizing first with
  | nil => simp [ofChain, Chain.tokens]
  | cons link chain ih =>
    have := ih (.operation first link.1 link.2)
    simp only [ofChain, List.foldl_cons, Chain.tokens, List.flatMap_cons] at this ⊢
    simp [this, tokens]

theorem Expression.code_ofChain (b : Bindings) :
    (ofChain first chain).code b = first.code b ++ chain.code b := by
  induction chain generalizing first with
  | nil => simp [ofChain, Chain.code]
  | cons link chain ih =>
    have := ih (.operation first link.1 link.2)
    simp only [ofChain, List.foldl_cons, Chain.code, List.flatMap_cons] at this ⊢
    simp [this, code]

theorem Expression.mentions_ofChain :
    (ofChain first chain).mentions = first.mentions ++ chain.mentions := by
  induction chain generalizing first with
  | nil => simp [ofChain, Chain.mentions]
  | cons link chain ih =>
    have := ih (.operation first link.1 link.2)
    simp only [ofChain, List.foldl_cons, Chain.mentions, List.flatMap_cons] at this ⊢
    simp [this, mentions]

theorem Expression.qualifiers_ofChain :
    (ofChain first chain).qualifiers = first.qualifiers ++ chain.qualifiers := by
  induction chain generalizing first with
  | nil => simp [ofChain, Chain.qualifiers]
  | cons link chain ih =>
    have := ih (.operation first link.1 link.2)
    simp only [ofChain, List.foldl_cons, Chain.qualifiers, List.flatMap_cons] at this ⊢
    simp [this, qualifiers]

end ofChain

/-- Every expression is a first term and a chain. -/
theorem Expression.exists_chain :
    ∀ e : Expression, ∃ (t : Term) (chain : Chain), e = ofChain (.term t) chain
  | .operation left op t => by
    obtain ⟨first, chain, rfl⟩ := exists_chain left
    exact ⟨first, chain ++ [(op, t)], by simp [ofChain]⟩
  | .term t => ⟨t, [], rfl⟩

/-! ## The end of a phrase -/

/-- The last token of the term is a variable. -/
def Term.endsInName : Term → Bool
  | .unary _ t => t.endsInName
  | .variable _ => .true
  | _ => .false

/-- Whether the last token is a variable, behind a phrase for which that is known. -/
def Chain.endsInName (first : Bool) (chain : Chain) : Bool :=
  chain.foldl (fun _ link => link.2.endsInName) first

def Expression.endsInName : Expression → Bool
  | .term t => t.endsInName
  | .operation _ _ right => right.endsInName

theorem Expression.endsInName_ofChain (first : Expression) (chain : Chain) :
    (ofChain first chain).endsInName = chain.endsInName first.endsInName := by
  induction chain generalizing first with
  | nil => rfl
  | cons link chain ih =>
    have := ih (.operation first link.1 link.2)
    simp only [ofChain, List.foldl_cons, Chain.endsInName] at this ⊢
    simpa [endsInName] using this

/-! ## Arguments -/

/-- The tokens of arguments behind others. -/
def Arguments.moreTokens : Arguments → List Kind
  | .nil => []
  | .cons first rest => .symbol ',' :: first.tokens ++ rest.moreTokens

theorem Arguments.tokens_cons :
    ∀ (first : Expression) (rest : Arguments),
      (cons first rest).tokens = first.tokens ++ rest.moreTokens
  | _, .nil => by simp [tokens, moreTokens]
  | _, .cons e rest => by
    have ih := tokens_cons e rest
    simp only [tokens, moreTokens, ih, List.cons_append]

/-! ## First tokens -/

/-- A term begins with no closing bracket and no semicolon. -/
theorem Term.exists_tokens_cons :
    ∀ t : Term, ∃ k kinds, t.tokens = k :: kinds ∧ k ≠ .symbol ')' ∧ k ≠ .symbol ';'
  | .integer _ | .string _ | .true | .false | .null | .this | .variable _ | .group _
  | .element .. => by simp [tokens]
  | .unary op t => by cases op <;> simp [tokens, UnaryOperator.token]
  | .call (.own ..) | .call (.qualified ..) => by simp [tokens, Call.tokens]

theorem Expression.exists_tokens_cons :
    ∀ e : Expression, ∃ k kinds, e.tokens = k :: kinds ∧ k ≠ .symbol ')' ∧ k ≠ .symbol ';'
  | .operation left op right => by
    obtain ⟨k, kinds, h, hk⟩ := left.exists_tokens_cons
    exact ⟨k, kinds ++ .symbol op.symbol :: right.tokens, by simp [tokens, h], hk⟩
  | .term t => t.exists_tokens_cons

/-! ## Statements -/

/-- The statement is an `if` without `else`. -/
def Statement.endsInIf : Statement → Bool
  | .conditional .. => .true
  | _ => .false

/-- Whether the last statement is an `if` without `else`, behind one for which that is known. -/
def Block.endsInIf (first : Bool) : Block → Bool
  | .nil => first
  | .cons st rest => rest.endsInIf st.endsInIf

/-! ## Names that may be used -/

/-- The variables are declared, and calls may be qualified with the qualifiers. -/
def Bindings.Allows (b : Bindings) (mentions qualifiers : List String) : Prop :=
  (∀ name ∈ mentions, b.Declares name) ∧ ∀ name ∈ qualifiers, b.Qualifies name

namespace Bindings

variable {b : Bindings} {name : String} {ms ms' qs qs' : List String}

@[simp] theorem allows_nil : b.Allows [] [] ↔ True := by simp [Allows]

theorem allows_append :
    b.Allows (ms ++ ms') (qs ++ qs') ↔ b.Allows ms qs ∧ b.Allows ms' qs' := by
  simp only [Allows, List.forall_mem_append]
  grind

theorem allows_cons_mention : b.Allows (name :: ms) qs ↔ b.Declares name ∧ b.Allows ms qs := by
  simp only [Allows, List.forall_mem_cons, and_assoc]

theorem allows_cons_qualifier : b.Allows ms (name :: qs) ↔ b.Qualifies name ∧ b.Allows ms qs := by
  simp only [Allows, List.forall_mem_cons]
  grind

end Bindings

end Syntax

end Jack

import Jack.Syntax.Tree

/-!
# The tokens of a phrase

`tokens` writes a phrase as the kinds of its tokens, which determine the phrase.
-/

namespace Jack.Syntax

open Token (Kind)
open Token.Kind (keyword symbol identifier)

def VariableType.token : VariableType → Kind
  | int => keyword .intKeyword
  | char => keyword .charKeyword
  | boolean => keyword .booleanKeyword
  | object className => identifier className

def UnaryOperator.token : UnaryOperator → Kind
  | negate => symbol '-'
  | complement => symbol '~'

mutual

def Term.tokens : Term → List Kind
  | .integer value => [.integer value]
  | .string content => [.string content]
  | .true => [keyword .trueKeyword]
  | .false => [keyword .falseKeyword]
  | .null => [keyword .nullKeyword]
  | .this => [keyword .thisKeyword]
  | .group e => symbol '(' :: e.tokens ++ [symbol ')']
  | .unary op t => op.token :: t.tokens
  | .variable name => [identifier name]
  | .element array index => identifier array :: symbol '[' :: index.tokens ++ [symbol ']']
  | .call c => c.tokens

def Expression.tokens : Expression → List Kind
  | .term t => t.tokens
  | .operation left op right => left.tokens ++ symbol op.symbol :: right.tokens

def Call.tokens : Call → List Kind
  | .own name arguments =>
    identifier name :: symbol '(' :: arguments.tokens ++ [symbol ')']
  | .qualified qualifier name arguments =>
    identifier qualifier :: symbol '.' :: identifier name :: symbol '(' ::
      arguments.tokens ++ [symbol ')']

def Arguments.tokens : Arguments → List Kind
  | .nil => []
  | .cons first .nil => first.tokens
  | .cons first rest => first.tokens ++ symbol ',' :: rest.tokens

end

mutual

def Statement.tokens : Statement → List Kind
  | .assign name value =>
    keyword .letKeyword :: identifier name :: symbol '=' :: value.tokens ++ [symbol ';']
  | .assignElement array index value =>
    keyword .letKeyword :: identifier array :: symbol '[' :: index.tokens ++
      symbol ']' :: symbol '=' :: value.tokens ++ [symbol ';']
  | .conditional condition body =>
    keyword .ifKeyword :: symbol '(' :: condition.tokens ++
      symbol ')' :: symbol '{' :: body.tokens ++ [symbol '}']
  | .alternative condition body otherwise =>
    keyword .ifKeyword :: symbol '(' :: condition.tokens ++
      symbol ')' :: symbol '{' :: body.tokens ++
      symbol '}' :: keyword .elseKeyword :: symbol '{' :: otherwise.tokens ++ [symbol '}']
  | .loop condition body =>
    keyword .whileKeyword :: symbol '(' :: condition.tokens ++
      symbol ')' :: symbol '{' :: body.tokens ++ [symbol '}']
  | .call c => keyword .doKeyword :: c.tokens ++ [symbol ';']
  | .giveBack none => [keyword .returnKeyword, symbol ';']
  | .giveBack (some value) => keyword .returnKeyword :: value.tokens ++ [symbol ';']

def Block.tokens : Block → List Kind
  | .nil => []
  | .cons first rest => first.tokens ++ rest.tokens

end

/-- A declaration behind its keyword. -/
def Variables.tokens (v : Variables) : List Kind :=
  v.type.token :: identifier v.first :: v.others.flatMap (fun name => [symbol ',', identifier name])
    ++ [symbol ';']

def Parameter.tokens (p : Parameter) : List Kind := [p.type.token, identifier p.name]

def parameterTokens : List Parameter → List Kind
  | [] => []
  | first :: rest => first.tokens ++ rest.flatMap (fun p => symbol ',' :: p.tokens)

def kindToken : Subroutine.Kind → Kind
  | .constructor => keyword .constructorKeyword
  | .function => keyword .functionKeyword
  | .method => keyword .methodKeyword

def SubroutineDeclaration.tokens (d : SubroutineDeclaration) : List Kind :=
  kindToken d.kind :: (d.returnType.map (·.token)).getD (keyword .voidKeyword) ::
    identifier d.name :: symbol '(' :: parameterTokens d.parameters ++
    symbol ')' :: symbol '{' :: d.locals.flatMap (fun v => keyword .varKeyword :: v.tokens) ++
    d.body.tokens ++ [symbol '}']

def ClassVariables.tokens (v : ClassVariables) : List Kind :=
  keyword v.ownership.keyword :: v.declaration.tokens

def ClassDeclaration.tokens (c : ClassDeclaration) : List Kind :=
  keyword .classKeyword :: identifier c.name :: symbol '{' ::
    c.declarations.flatMap ClassVariables.tokens ++
    c.subroutines.flatMap SubroutineDeclaration.tokens ++ [symbol '}']

end Jack.Syntax

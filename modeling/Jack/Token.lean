/-!
# Tokens

A token has a kind, the text it was read from and the bytes of the source which that text fills.
`Keyword.ofText?` undoes `Keyword.text` and knows no other spelling.
-/

namespace Jack

/-- A range of bytes of the source, its end excluded. -/
structure Span where
  start : Nat
  stop : Nat
  deriving DecidableEq, Repr, Inhabited

inductive Keyword
  | classKeyword | constructorKeyword | functionKeyword | methodKeyword
  | fieldKeyword | staticKeyword | varKeyword
  | intKeyword | charKeyword | booleanKeyword | voidKeyword
  | trueKeyword | falseKeyword | nullKeyword | thisKeyword
  | letKeyword | doKeyword | ifKeyword | elseKeyword | whileKeyword | returnKeyword
  deriving DecidableEq, Repr, Inhabited

namespace Keyword

def text : Keyword → String
  | classKeyword => "class"
  | constructorKeyword => "constructor"
  | functionKeyword => "function"
  | methodKeyword => "method"
  | fieldKeyword => "field"
  | staticKeyword => "static"
  | varKeyword => "var"
  | intKeyword => "int"
  | charKeyword => "char"
  | booleanKeyword => "boolean"
  | voidKeyword => "void"
  | trueKeyword => "true"
  | falseKeyword => "false"
  | nullKeyword => "null"
  | thisKeyword => "this"
  | letKeyword => "let"
  | doKeyword => "do"
  | ifKeyword => "if"
  | elseKeyword => "else"
  | whileKeyword => "while"
  | returnKeyword => "return"

def all : List Keyword :=
  [classKeyword, constructorKeyword, functionKeyword, methodKeyword, fieldKeyword, staticKeyword,
    varKeyword, intKeyword, charKeyword, booleanKeyword, voidKeyword, trueKeyword, falseKeyword,
    nullKeyword, thisKeyword, letKeyword, doKeyword, ifKeyword, elseKeyword, whileKeyword,
    returnKeyword]

def ofText? (word : String) : Option Keyword := all.find? (·.text == word)

@[simp] theorem ofText?_text (k : Keyword) : ofText? k.text = some k := by cases k <;> decide

theorem ofText?_eq_some_iff {word : String} {k : Keyword} :
    ofText? word = some k ↔ k.text = word := by
  constructor
  · intro h
    simpa using List.find?_some h
  · rintro rfl
    exact ofText?_text k

end Keyword

namespace Token

inductive Kind
  | keyword (k : Keyword)
  | symbol (c : Char)
  | identifier (name : String)
  | integer (value : Nat)
  /-- The text between the quotes. -/
  | string (content : String)
  deriving DecidableEq, Repr, Inhabited

end Token

structure Token where
  kind : Token.Kind
  /-- The source text, a string with its quotes. -/
  lexeme : String
  span : Span
  deriving DecidableEq, Repr, Inhabited

namespace Token

def isSymbol (t : Token) (c : Char) : Bool := t.kind = .symbol c

def isKeyword (t : Token) (k : Keyword) : Bool := t.kind = .keyword k

end Token

end Jack

import Jack.Environment
import Jack.Error
import Jack.Operator

/-!
# The state of a compilation

The tokens that are left, and the environment. `require` asks for a token of some class and fails
without one; `accept?` takes one if it is there. Either takes at most the token at hand, and taking
it needs the token after it to decode. `require_eq_ok` and `accept?_eq_ok` say what they take.
-/

namespace Jack.Compiler

structure State where
  input : TokenStream
  env : Environment := {}

/-- The statements, by the keywords that begin them. -/
inductive StatementKind
  | letStatement | ifStatement | whileStatement | doStatement | returnStatement
  deriving DecidableEq, Repr

theorem bind_eq_ok {α β : Type} {x : Except Error α} {f : α → Except Error β} {b : β} :
    x >>= f = .ok b ↔ ∃ a, x = .ok a ∧ f a = .ok b := by
  cases x <;> simp [bind, Except.bind]

/-! ## Classes of tokens -/

def isExactly (kind : Token.Kind) (k : Token.Kind) : Option Unit :=
  if k = kind then some () else none

def identifier? : Token.Kind → Option String
  | .identifier name => some name
  | _ => none

theorem identifier?_eq_some {k : Token.Kind} {name : String} :
    identifier? k = some name ↔ k = .identifier name := by
  cases k <;> simp [identifier?]

/-- The name of the type that the token denotes. -/
def typeName? : Token.Kind → Option String
  | .identifier name => some name
  | .keyword .intKeyword => some Keyword.intKeyword.text
  | .keyword .charKeyword => some Keyword.charKeyword.text
  | .keyword .booleanKeyword => some Keyword.booleanKeyword.text
  | _ => none

def classVariableKind? : Token.Kind → Option Symbol.Kind
  | .keyword .staticKeyword => some .staticVar
  | .keyword .fieldKeyword => some .field
  | _ => none

def subroutineKind? : Token.Kind → Option Subroutine.Kind
  | .keyword k => Subroutine.Kind.ofKeyword? k
  | _ => none

def statementKind? : Token.Kind → Option StatementKind
  | .keyword .letKeyword => some .letStatement
  | .keyword .ifKeyword => some .ifStatement
  | .keyword .whileKeyword => some .whileStatement
  | .keyword .doKeyword => some .doStatement
  | .keyword .returnKeyword => some .returnStatement
  | _ => none

def operator? : Token.Kind → Option Operator
  | .symbol c => Operator.ofSymbol? c
  | _ => none

/-- Variables of these types hold no object. -/
def isPrimitiveType (typeName : String) : Bool :=
  typeName = Keyword.intKeyword.text || typeName = Keyword.charKeyword.text ||
    typeName = Keyword.booleanKeyword.text

namespace State

variable {α : Type}

def current? (s : State) : Option Token := s.input.tokens.head?

def at? (s : State) (kind : Token.Kind) : Bool := s.current?.any (·.kind = kind)

/-! ## Taking tokens -/

/-- Drops the token at hand; the one behind it has to decode. -/
def drop (s : State) : Except Error State :=
  match s.input with
  | ⟨[_], some e⟩ => .error (.scan e)
  | ⟨tokens, stop⟩ => .ok { s with input := ⟨tokens.tail, stop⟩ }

/-- Takes the token at hand if it is in the class, with what it stands for. -/
def accept? (s : State) (cls : Token.Kind → Option α) : Except Error (Option (α × State)) :=
  match s.current?.bind (cls ·.kind) with
  | none => .ok none
  | some a => do return some (a, ← s.drop)

/-- Takes a token of the class, with what it stands for and its place. -/
def require (s : State) (expected : String) (cls : Token.Kind → Option α) :
    Except Error (α × Span × State) :=
  match s.current? with
  | none => .error (.unexpectedEnd expected)
  | some t =>
    match cls t.kind with
    | none => .error (.unexpectedToken expected t.lexeme t.span)
    | some a => do return (a, t.span, ← s.drop)

theorem drop_cons {t : Token} {rest : List Token} {stop : Option ScanError} {env : Environment}
    (h : rest ≠ [] ∨ stop = none) :
    drop ⟨⟨t :: rest, stop⟩, env⟩ = .ok ⟨⟨rest, stop⟩, env⟩ := by
  simp only [drop]
  split <;> rename_i hi <;> simp only [TokenStream.mk.injEq] at hi
  · simp_all
  · rw [← hi.1, ← hi.2, List.tail_cons]

/-- What dropping a token leaves. -/
theorem drop_eq_ok {s s' : State} {t : Token} (ht : s.current? = some t) (h : s.drop = .ok s') :
    s.input.tokens = t :: s'.input.tokens ∧ s'.input.stop = s.input.stop ∧ s'.env = s.env := by
  obtain ⟨⟨tokens, stop⟩, env⟩ := s
  cases tokens with
  | nil => simp [current?] at ht
  | cons t' tokens =>
    simp only [current?, List.head?_cons, Option.some.injEq] at ht
    subst ht
    simp only [drop] at h
    split at h <;> simp only [Except.ok.injEq, reduceCtorEq] at h
    rename_i hi
    obtain ⟨rfl, rfl⟩ := hi
    subst h
    simp

theorem length_of_drop {s s' : State} {t : Token} (ht : s.current? = some t)
    (h : s.drop = .ok s') : s.input.tokens.length = s'.input.tokens.length + 1 := by
  rw [(drop_eq_ok ht h).1, List.length_cons]

theorem accept?_eq_ok {s s' : State} {cls : Token.Kind → Option α} {a : α} :
    s.accept? cls = .ok (some (a, s')) ↔
      ∃ t, s.current? = some t ∧ cls t.kind = some a ∧ s.drop = .ok s' := by
  simp only [accept?]
  cases s.current? with
  | none => simp
  | some t =>
    simp only [Option.bind_some, Option.some.injEq, exists_eq_left']
    cases cls t.kind with
    | none => simp
    | some b =>
      simp only [bind_eq_ok, pure, Except.pure, Except.ok.injEq, Prod.mk.injEq, Option.some.injEq]
      grind

theorem require_eq_ok {s s' : State} {expected : String} {cls : Token.Kind → Option α} {a : α}
    {span : Span} :
    s.require expected cls = .ok (a, span, s') ↔
      ∃ t, s.current? = some t ∧ cls t.kind = some a ∧ t.span = span ∧ s.drop = .ok s' := by
  simp only [require]
  cases s.current? with
  | none => simp
  | some t =>
    simp only [Option.some.injEq, exists_eq_left']
    cases cls t.kind with
    | none => simp
    | some b =>
      simp only [bind_eq_ok, pure, Except.pure, Except.ok.injEq, Prod.mk.injEq, Option.some.injEq]
      grind

def quoted (text : String) : String := s!"`{text}`"

def requireSymbol (s : State) (c : Char) : Except Error State := do
  let (_, _, s) ← s.require (quoted (String.singleton c)) (isExactly (.symbol c))
  return s

def requireKeyword (s : State) (k : Keyword) : Except Error State := do
  let (_, _, s) ← s.require (quoted k.text) (isExactly (.keyword k))
  return s

def requireName (s : State) (expected : String) : Except Error (String × Span × State) :=
  s.require expected identifier?

def requireType (s : State) : Except Error (String × State) := do
  let (typeName, _, s) ← s.require "a type" typeName?
  return (typeName, s)

/-! ## Names -/

/-- Defines a name, which its scope may not know yet. -/
def declare (s : State) (name typeName : String) (kind : Symbol.Kind) (span : Span) :
    Except Error State :=
  if ((s.env.scopeOf kind).lookup name).isSome then .error (.alreadyDefined name span)
  else .ok { s with env := s.env.define name typeName kind }

theorem eq_of_declare {s s' : State} {name typeName : String} {kind : Symbol.Kind} {span : Span}
    (h : s.declare name typeName kind span = .ok s') :
    s' = { s with env := s.env.define name typeName kind } := by
  simp only [declare] at h
  split at h <;> simp only [Except.ok.injEq, reduceCtorEq] at h
  exact h.symm

def meaning (s : State) (name : String) (span : Span) : Except Error Symbol :=
  match s.env.find? name with
  | some symbol => .ok symbol
  | none => .error (.undefinedSymbol name span)

end State

end Jack.Compiler

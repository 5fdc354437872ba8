import Jack.Syntax.Tree

/-!
# Scoping rules

A class declares its statics and fields, a subroutine its parameters and locals, and no scope
declares a name twice. A variable has the index of its declaration among those of its kind. Every
variable that is read, indexed or assigned has to be declared, and a call may not be qualified with
a variable of a primitive type.
-/

namespace Jack.Syntax

/-! ## Declarations -/

structure Declared where
  name : String
  typeName : String
  kind : Symbol.Kind
  deriving DecidableEq, Repr

def Variables.declared (v : Variables) (kind : Symbol.Kind) : List Declared :=
  v.names.map fun name => { name, typeName := v.type.text, kind }

def ClassVariables.declared (v : ClassVariables) : List Declared :=
  v.declaration.declared v.ownership.kind

def Parameter.declared (p : Parameter) : Declared :=
  { name := p.name, typeName := p.type.text, kind := .argument }

def ClassDeclaration.declared (c : ClassDeclaration) : List Declared :=
  c.declarations.flatMap ClassVariables.declared

/-- What a subroutine declares by name. -/
def SubroutineDeclaration.declared (d : SubroutineDeclaration) : List Declared :=
  d.parameters.map Parameter.declared ++ d.locals.flatMap (·.declared .localVar)

/-- The argument that a method has without declaring it. -/
def SubroutineDeclaration.implicit (d : SubroutineDeclaration) (className : String) :
    List Declared :=
  if d.kind = .method then [⟨Keyword.thisKeyword.text, className, .argument⟩] else []

/-- Declarations as symbols: each has the number of earlier ones of its kind as its index. -/
def symbols (declared : List Declared) : List Symbol :=
  declared.zipIdx.map fun (d, place) =>
    { name := d.name
      typeName := d.typeName
      kind := d.kind
      index := (declared.take place).countP (·.kind = d.kind) }

/-! ## Names in a subroutine -/

/-- What the code of a subroutine is made with. -/
structure Bindings where
  className : String
  kind : Subroutine.Kind
  /-- The variables that are visible, those of the subroutine first. -/
  visible : List Symbol

def Bindings.resolve (b : Bindings) (name : String) : Option Symbol :=
  b.visible.find? (·.name = name)

def bindings (c : ClassDeclaration) (d : SubroutineDeclaration) : Bindings :=
  { className := c.name
    kind := d.kind
    visible := symbols (d.implicit c.name ++ d.declared) ++ symbols c.declared }

mutual

/-- The variables that are read or indexed. -/
def Term.mentions : Term → List String
  | .group e => e.mentions
  | .unary _ t => t.mentions
  | .variable name => [name]
  | .element array index => array :: index.mentions
  | .call c => c.mentions
  | _ => []

def Expression.mentions : Expression → List String
  | .term t => t.mentions
  | .operation left _ right => left.mentions ++ right.mentions

def Call.mentions : Call → List String
  | .own _ arguments => arguments.mentions
  | .qualified _ _ arguments => arguments.mentions

def Arguments.mentions : Arguments → List String
  | .nil => []
  | .cons first rest => first.mentions ++ rest.mentions

end

mutual

/-- The names before the dots of calls. -/
def Term.qualifiers : Term → List String
  | .group e => e.qualifiers
  | .unary _ t => t.qualifiers
  | .element _ index => index.qualifiers
  | .call c => c.qualifiers
  | _ => []

def Expression.qualifiers : Expression → List String
  | .term t => t.qualifiers
  | .operation left _ right => left.qualifiers ++ right.qualifiers

def Call.qualifiers : Call → List String
  | .own _ arguments => arguments.qualifiers
  | .qualified qualifier _ arguments => qualifier :: arguments.qualifiers

def Arguments.qualifiers : Arguments → List String
  | .nil => []
  | .cons first rest => first.qualifiers ++ rest.qualifiers

end

mutual

/-- The variables that are read, indexed or assigned. -/
def Statement.mentions : Statement → List String
  | .assign name value => name :: value.mentions
  | .assignElement array index value => array :: index.mentions ++ value.mentions
  | .conditional condition body => condition.mentions ++ body.mentions
  | .alternative condition body otherwise =>
    condition.mentions ++ body.mentions ++ otherwise.mentions
  | .loop condition body => condition.mentions ++ body.mentions
  | .call c => c.mentions
  | .giveBack none => []
  | .giveBack (some value) => value.mentions

def Block.mentions : Block → List String
  | .nil => []
  | .cons first rest => first.mentions ++ rest.mentions

end

mutual

def Statement.qualifiers : Statement → List String
  | .assign _ value => value.qualifiers
  | .assignElement _ index value => index.qualifiers ++ value.qualifiers
  | .conditional condition body => condition.qualifiers ++ body.qualifiers
  | .alternative condition body otherwise =>
    condition.qualifiers ++ body.qualifiers ++ otherwise.qualifiers
  | .loop condition body => condition.qualifiers ++ body.qualifiers
  | .call c => c.qualifiers
  | .giveBack none => []
  | .giveBack (some value) => value.qualifiers

def Block.qualifiers : Block → List String
  | .nil => []
  | .cons first rest => first.qualifiers ++ rest.qualifiers

end

/-! ## The rules -/

def primitiveTypes : List String :=
  [Keyword.intKeyword.text, Keyword.charKeyword.text, Keyword.booleanKeyword.text]

def NamesOnce (declared : List Declared) : Prop := (declared.map (·.name)).Nodup

instance (declared : List Declared) : Decidable (NamesOnce declared) :=
  inferInstanceAs (Decidable (List.Nodup _))

/-- The name is declared. -/
def Bindings.Declares (b : Bindings) (name : String) : Prop := (b.resolve name).isSome

instance (b : Bindings) (name : String) : Decidable (b.Declares name) :=
  inferInstanceAs (Decidable (_ = true))

/-- A call may be qualified with the name. -/
def Bindings.Qualifies (b : Bindings) (name : String) : Prop :=
  ∀ s ∈ b.resolve name, s.typeName ∉ primitiveTypes

instance (b : Bindings) (name : String) : Decidable (b.Qualifies name) :=
  inferInstanceAs (Decidable (∀ s ∈ b.resolve name, _))

structure SubroutineDeclaration.Scoped (d : SubroutineDeclaration) (b : Bindings) : Prop where
  names_once : NamesOnce d.declared
  declares : ∀ name ∈ d.body.mentions, b.Declares name
  qualifies : ∀ name ∈ d.body.qualifiers, b.Qualifies name

instance (d : SubroutineDeclaration) (b : Bindings) : Decidable (d.Scoped b) :=
  decidable_of_iff (NamesOnce d.declared ∧ (∀ name ∈ d.body.mentions, b.Declares name) ∧
    ∀ name ∈ d.body.qualifiers, b.Qualifies name)
    ⟨fun ⟨h, h', h''⟩ => ⟨h, h', h''⟩, fun h => ⟨h.1, h.2, h.3⟩⟩

structure ClassDeclaration.Scoped (c : ClassDeclaration) : Prop where
  names_once : NamesOnce c.declared
  subroutines : ∀ d ∈ c.subroutines, d.Scoped (bindings c d)

instance (c : ClassDeclaration) : Decidable c.Scoped :=
  decidable_of_iff (NamesOnce c.declared ∧ ∀ d ∈ c.subroutines, d.Scoped (bindings c d))
    ⟨fun ⟨h, h'⟩ => ⟨h, h'⟩, fun h => ⟨h.1, h.2⟩⟩

end Jack.Syntax

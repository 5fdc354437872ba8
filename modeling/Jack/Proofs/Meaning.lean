import Jack.Proofs.Phrases
import Jack.Proofs.Taking
import Jack.Proofs.Trace

/-!
# What a goal means

`Meaning` says of a goal, without the compiler, which tokens it stands for, which code they give and
how they change the environment: that of some phrase of the grammar whose names may be used. What
follows the phrase must not go on with it. `Meanings` says it of a list of goals.

A step replaces a goal by goals that together mean the same. This is shown goal by goal in the
modules after this one; that runs mean the same then follows for any agenda.
-/

namespace Jack

open Syntax
open Token (Kind)

namespace Environment

/-- What an environment binds. -/
def bindings (env : Environment) : Bindings where
  className := env.className
  kind := (env.subroutine.map (·.kind)).getD .function
  visible := env.subroutineScope.symbols ++ env.classScope.symbols

theorem resolve_bindings (env : Environment) (name : String) :
    env.bindings.resolve name = env.find? name := by
  simp [Bindings.resolve, bindings, find?, Scope.lookup, List.find?_append]

/-- The environment behind some `if` and `while` statements. -/
def advance (env : Environment) (ifs whiles : Nat) : Environment :=
  { env with ifCount := env.ifCount + ifs, whileCount := env.whileCount + whiles }

@[simp] theorem bindings_advance (env : Environment) (i w : Nat) :
    (env.advance i w).bindings = env.bindings := rfl

@[simp] theorem ifCount_advance (env : Environment) (i w : Nat) :
    (env.advance i w).ifCount = env.ifCount + i := rfl

@[simp] theorem whileCount_advance (env : Environment) (i w : Nat) :
    (env.advance i w).whileCount = env.whileCount + w := rfl

@[simp] theorem advance_zero (env : Environment) : env.advance 0 0 = env := rfl

theorem advance_advance (env : Environment) (i i' w w' : Nat) :
    (env.advance i w).advance i' w' = env.advance (i + i') (w + w') := by
  simp [advance, Nat.add_assoc]

/-- Makes declarations one after the other; none may name what its scope has already. -/
def declareAll (env : Environment) : List Declared → Option Environment
  | [] => some env
  | d :: rest =>
    if ((env.scopeOf d.kind).lookup d.name).isSome then none
    else (env.define d.name d.typeName d.kind).declareAll rest

end Environment

namespace Compiler

namespace State

/-- The token goes on with a name in front of it. -/
def Extends (k : Option Kind) : Prop :=
  k = some (.symbol '[') ∨ k = some (.symbol '(') ∨ k = some (.symbol '.')

/-- What was read stands complete; the flag tells that it ends in a variable. -/
def Ends (s : State) (inName : Bool) : Prop := inName = true → ¬ Extends s.next?

/-- What was read stands complete; the flag tells that it ends in an `if` without `else`. -/
def Closes (s : State) (inIf : Bool) : Prop := inIf = true → s.next? ≠ some (.keyword .elseKeyword)

/-- The tokens of a phrase are at hand, and its names may be used. -/
def Reads (s : State) (kinds : List Kind) (mentions qualifiers : List String) (s' : State) : Prop :=
  s.Takes kinds s' ∧ s.env.bindings.Allows mentions qualifiers

/-- The same for a phrase with `if` and `while` statements. -/
def Passes (s : State) (kinds : List Kind) (mentions qualifiers : List String) (ifs whiles : Nat)
    (s' : State) : Prop :=
  ∃ s₁, s.Reads kinds mentions qualifiers s₁ ∧ s' = { s₁ with env := s.env.advance ifs whiles }

/-- The tokens of declarations are at hand, and the declarations can be made. -/
def Declares (s : State) (kinds : List Kind) (declared : List Declared) (s' : State) : Prop :=
  ∃ s₁ env, s.Takes kinds s₁ ∧ s.env.declareAll declared = some env ∧ s' = { s₁ with env }

/-- A subroutine is at hand; its declarations can be made and its names be used. -/
def Enters (s : State) (d : SubroutineDeclaration) (c : List Instruction) (s' : State) : Prop :=
  ∃ s₁ s₂,
    s.Takes [kindToken d.kind, (d.returnType.map (·.token)).getD (.keyword .voidKeyword),
      .identifier d.name] s₁ ∧
    Declares { s₁ with env := s.env.beginSubroutine d.name d.kind }
      (.symbol '(' :: parameterTokens d.parameters ++ .symbol ')' :: .symbol '{' ::
        d.locals.flatMap fun v => .keyword .varKeyword :: v.tokens) d.declared s₂ ∧
    s₂.Passes (d.body.tokens ++ [.symbol '}']) d.body.mentions d.body.qualifiers d.body.ifs
      d.body.whiles s' ∧
    c = prologueCode s₂.env d.kind ++
      d.body.code s₂.env.bindings s₂.env.ifCount s₂.env.whileCount

def EntersAll : List SubroutineDeclaration → State → List Instruction → State → Prop
  | [], s, c, s' => c = [] ∧ s' = s
  | d :: rest, s, c, s' =>
    ∃ c₁ s₁ c₂, s.Enters d c₁ s₁ ∧ EntersAll rest s₁ c₂ s' ∧ c = c₁ ++ c₂

/-- A class is at hand behind its keyword, and no token is left behind it. -/
def Holds (s : State) (k : ClassDeclaration) (c : List Instruction) (s' : State) : Prop :=
  ∃ s₁ s₂ s₃,
    s.Takes [.identifier k.name] s₁ ∧
    Declares { s₁ with env := s.env.beginClass k.name }
      (.symbol '{' :: k.declarations.flatMap ClassVariables.tokens) k.declared s₂ ∧
    EntersAll k.subroutines s₂ c s₃ ∧ s₃.Takes [.symbol '}'] s' ∧ s'.next? = none

end State

/-- The names behind the first one of a declaration. -/
def moreNames (names : List String) : List Kind :=
  names.flatMap fun name => [.symbol ',', .identifier name]

/-- The parameters behind the first one. -/
def moreParameters (parameters : List Parameter) : List Kind :=
  parameters.flatMap fun p => .symbol ',' :: p.tokens

open State

def Meaning : Goal → State → List Instruction → State → Prop
  | .emit code, s, c, s' => c = code ∧ s' = s
  | .note _, s, c, s' => c = [] ∧ s' = s
  | .symbol ch, s, c, s' => c = [] ∧ s.Takes [.symbol ch] s'
  | .expression, s, c, s' => ∃ e : Expression,
      s.Reads e.tokens e.mentions e.qualifiers s' ∧ c = e.code s.env.bindings ∧
        s'.Ends e.endsInName ∧ s'.next?.bind operator? = none
  | .operators, s, c, s' => ∃ chain : Chain,
      s.Reads chain.tokens chain.mentions chain.qualifiers s' ∧ c = chain.code s.env.bindings ∧
        s'.Ends (chain.endsInName false) ∧ s'.next?.bind operator? = none
  | .term, s, c, s' => ∃ t : Term,
      s.Reads t.tokens t.mentions t.qualifiers s' ∧ c = t.code s.env.bindings ∧
        s'.Ends t.endsInName
  | .named name _, s, c, s' => ∃ (t : Term) (kinds : List Kind),
      t.tokens = .identifier name :: kinds ∧ s.Reads kinds t.mentions t.qualifiers s' ∧
        c = t.code s.env.bindings ∧ s'.Ends t.endsInName
  | .call name _, s, c, s' => ∃ (cl : Call) (kinds : List Kind),
      cl.tokens = .identifier name :: kinds ∧ s.Reads kinds cl.mentions cl.qualifiers s' ∧
        c = cl.code s.env.bindings
  | .qualifiedCall name _, s, c, s' => ∃ (sub : String) (args : Arguments),
      s.Reads (.identifier sub :: .symbol '(' :: args.tokens ++ [.symbol ')']) args.mentions
        (name :: args.qualifiers) s' ∧ c = (Call.qualified name sub args).code s.env.bindings
  | .arguments f n, s, c, s' => ∃ args : Arguments,
      s.Reads (.symbol '(' :: args.tokens ++ [.symbol ')']) args.mentions args.qualifiers s' ∧
        c = args.code s.env.bindings ++ [.call f (n + args.length)]
  | .argumentList f n, s, c, s' => ∃ args : Arguments,
      s.Reads (args.tokens ++ [.symbol ')']) args.mentions args.qualifiers s' ∧
        c = args.code s.env.bindings ++ [.call f (n + args.length)]
  | .moreArguments f n, s, c, s' => ∃ args : Arguments,
      s.Reads (args.moreTokens ++ [.symbol ')']) args.mentions args.qualifiers s' ∧
        c = args.code s.env.bindings ++ [.call f (n + args.length)]
  | .statements, s, c, s' => ∃ body : Block,
      s.Passes body.tokens body.mentions body.qualifiers body.ifs body.whiles s' ∧
        c = body.code s.env.bindings s.env.ifCount s.env.whileCount ∧
        s'.Closes (body.endsInIf false) ∧ s'.next?.bind statementKind? = none
  | .letTarget, s, c, s' => ∃ (st : Statement) (kinds : List Kind),
      st.tokens = .keyword .letKeyword :: kinds ∧ s.Reads kinds st.mentions st.qualifiers s' ∧
        c = st.code s.env.bindings 0 0
  | .assignment target, s, c, s' =>
      (∃ value : Expression,
        s.Reads (.symbol '=' :: value.tokens ++ [.symbol ';']) value.mentions value.qualifiers s' ∧
          c = value.code s.env.bindings ++ [target.pop]) ∨
      ∃ index value : Expression,
        s.Reads (.symbol '[' :: index.tokens ++ .symbol ']' :: .symbol '=' :: value.tokens ++
          [.symbol ';']) (index.mentions ++ value.mentions) (index.qualifiers ++ value.qualifiers)
          s' ∧
          c = target.push :: index.code s.env.bindings ++ [.command .add] ++
            value.code s.env.bindings ++ storeElement
  | .elseBranch, s, c, s' =>
      (s.next? ≠ some (.keyword .elseKeyword) ∧ c = [] ∧ s' = s) ∨
      ∃ body : Block,
        s.Passes (.keyword .elseKeyword :: .symbol '{' :: body.tokens ++ [.symbol '}'])
          body.mentions body.qualifiers body.ifs body.whiles s' ∧
          c = body.code s.env.bindings s.env.ifCount s.env.whileCount
  | .doCall, s, c, s' => ∃ cl : Call,
      s.Reads cl.tokens cl.mentions cl.qualifiers s' ∧ c = cl.code s.env.bindings
  | .returnValue, s, c, s' =>
      (s.next? = some (.symbol ';') ∧ c = [] ∧ s' = s) ∨
      ∃ e : Expression,
        s.Reads e.tokens e.mentions e.qualifiers s' ∧ c = e.code s.env.bindings ∧
          s'.Ends e.endsInName ∧ s'.next?.bind operator? = none
  | .classDeclaration, s, c, s' => ∃ (k : ClassDeclaration) (s₁ : State),
      s.Takes [.keyword .classKeyword] s₁ ∧ s₁.Holds k c s'
  | .className, s, c, s' => ∃ k : ClassDeclaration, s.Holds k c s'
  | .classVariables, s, c, s' => ∃ vs : List ClassVariables,
      s.Declares (vs.flatMap ClassVariables.tokens) (vs.flatMap ClassVariables.declared) s' ∧
        c = [] ∧ s'.next?.bind classVariableKind? = none
  | .subroutines, s, c, s' => ∃ ds : List SubroutineDeclaration,
      s.EntersAll ds c s' ∧ s'.next?.bind subroutineKind? = none
  | .returnType, s, c, s' => ∃ r : Option VariableType,
      s.Takes [(r.map (·.token)).getD (.keyword .voidKeyword)] s' ∧ c = []
  | .subroutineName kind, s, c, s' => ∃ name s₁,
      s.Takes [.identifier name] s₁ ∧ s' = { s₁ with env := s.env.beginSubroutine name kind } ∧
        c = []
  | .parameters, s, c, s' => ∃ ps : List Parameter,
      s.Declares (parameterTokens ps) (ps.map Parameter.declared) s' ∧ c = [] ∧
        (ps = [] → s.next? = some (.symbol ')')) ∧ s'.next? ≠ some (.symbol ',')
  | .parameter, s, c, s' => ∃ (p : Parameter) (ps : List Parameter),
      s.Declares (p.tokens ++ moreParameters ps) ((p :: ps).map Parameter.declared) s' ∧ c = [] ∧
        s'.next? ≠ some (.symbol ',')
  | .parameterName typeName, s, c, s' => ∃ (name : String) (ps : List Parameter),
      s.Declares (.identifier name :: moreParameters ps)
        (⟨name, typeName, .argument⟩ :: ps.map Parameter.declared) s' ∧ c = [] ∧
        s'.next? ≠ some (.symbol ',')
  | .moreParameters, s, c, s' => ∃ ps : List Parameter,
      s.Declares (moreParameters ps) (ps.map Parameter.declared) s' ∧ c = [] ∧
        s'.next? ≠ some (.symbol ',')
  | .localVariables, s, c, s' => ∃ vs : List Variables,
      s.Declares (vs.flatMap fun v => .keyword .varKeyword :: v.tokens)
        (vs.flatMap (·.declared .localVar)) s' ∧ c = [] ∧
        s'.next? ≠ some (.keyword .varKeyword)
  | .variableType kind, s, c, s' => ∃ v : Variables,
      s.Declares (v.type.token :: .identifier v.first :: moreNames v.others) (v.declared kind) s' ∧
        c = [] ∧ s'.next? ≠ some (.symbol ',')
  | .variableName kind typeName, s, c, s' => ∃ (first : String) (others : List String),
      s.Declares (.identifier first :: moreNames others)
        ((first :: others).map (⟨·, typeName, kind⟩)) s' ∧ c = [] ∧
        s'.next? ≠ some (.symbol ',')
  | .moreVariables kind typeName, s, c, s' => ∃ names : List String,
      s.Declares (moreNames names) (names.map (⟨·, typeName, kind⟩)) s' ∧ c = [] ∧
        s'.next? ≠ some (.symbol ',')
  | .prologue kind, s, c, s' => c = prologueCode s.env kind ∧ s' = s
  | .endOfClass, s, c, s' => s.next? = none ∧ c = [] ∧ s' = s

/-- What goals mean one after the other. -/
def Meanings : List Goal → State → List Instruction → State → Prop
  | [], s, c, s' => c = [] ∧ s' = s
  | g :: goals, s, c, s' =>
    ∃ c₁ s₁ c₂, Meaning g s c₁ s₁ ∧ Meanings goals s₁ c₂ s' ∧ c = c₁ ++ c₂

/-- What a goal means by the goals that a step puts in its place. -/
def Unfolds (g : Goal) (s : State) (c : List Instruction) (s' : State) : Prop :=
  ∃ goals s₁, step s g = .ok (goals, s₁) ∧ Meanings goals s₁ c s'

variable {s s' : State} {c : List Instruction} {goals : List Goal}

@[simp] theorem meanings_nil : Meanings [] s c s' ↔ c = [] ∧ s' = s := Iff.rfl

theorem meanings_cons {g : Goal} : Meanings (g :: goals) s c s' ↔
    ∃ c₁ s₁ c₂, Meaning g s c₁ s₁ ∧ Meanings goals s₁ c₂ s' ∧ c = c₁ ++ c₂ := Iff.rfl

@[simp] theorem meanings_singleton {g : Goal} : Meanings [g] s c s' ↔ Meaning g s c s' := by
  constructor
  · rintro ⟨c₁, s₁, c₂, h, ⟨rfl, rfl⟩, rfl⟩
    simpa using h
  · exact fun h => ⟨c, s', [], h, ⟨rfl, rfl⟩, (List.append_nil c).symm⟩

theorem meanings_emit {code : List Instruction} : Meanings (.emit code :: goals) s c s' ↔
    ∃ c', Meanings goals s c' s' ∧ c = code ++ c' := by
  simp [meanings_cons, Meaning, and_assoc]

theorem meanings_symbol {ch : Char} : Meanings (.symbol ch :: goals) s c s' ↔
    ∃ s₁, s.Takes [.symbol ch] s₁ ∧ Meanings goals s₁ c s' := by
  simp [meanings_cons, Meaning, and_assoc]

/-! ### Building goals up -/

namespace Meanings

variable {c₁ c₂ : List Instruction} {s₁ : State}

theorem nil : Meanings [] s [] s := ⟨rfl, rfl⟩

theorem cons {g : Goal} (h : Meaning g s c₁ s₁) (h' : Meanings goals s₁ c₂ s') :
    Meanings (g :: goals) s (c₁ ++ c₂) s' := ⟨c₁, s₁, c₂, h, h', rfl⟩

theorem emit (code : List Instruction) (h : Meanings goals s c s') :
    Meanings (.emit code :: goals) s (code ++ c) s' := meanings_emit.2 ⟨c, h, rfl⟩

theorem symbol {ch : Char} (h : s.Takes [.symbol ch] s₁) (h' : Meanings goals s₁ c s') :
    Meanings (.symbol ch :: goals) s c s' := meanings_symbol.2 ⟨s₁, h, h'⟩

end Meanings

theorem meanings_append {more : List Goal} : Meanings (goals ++ more) s c s' ↔
    ∃ c₁ s₁ c₂, Meanings goals s c₁ s₁ ∧ Meanings more s₁ c₂ s' ∧ c = c₁ ++ c₂ := by
  induction goals generalizing s c with
  | nil => simp [and_assoc]
  | cons g goals ih =>
    simp only [List.cons_append, meanings_cons, ih]
    constructor
    · rintro ⟨c₁, s₁, c₂, h₁, ⟨c₃, s₂, c₄, h₂, h₃, rfl⟩, rfl⟩
      exact ⟨c₁ ++ c₃, s₂, c₄, ⟨c₁, s₁, c₃, h₁, h₂, rfl⟩, h₃, (List.append_assoc ..).symm⟩
    · rintro ⟨c₁, s₂, c₄, ⟨c₃, s₁, c₂, h₁, h₂, rfl⟩, h₃, rfl⟩
      exact ⟨c₃, s₁, c₂ ++ c₄, h₁, ⟨c₂, s₂, c₄, h₂, h₃, rfl⟩, List.append_assoc ..⟩

theorem unfolds_of_eq {g : Goal} {s₁ : State} (h : step s g = .ok (goals, s₁)) :
    Unfolds g s c s' ↔ Meanings goals s₁ c s' := by
  simp [Unfolds, h, and_assoc]

/-- A goal that goes on by whether a token of a class is at hand. -/
theorem unfolds_accept {α : Type} {g : Goal} (cls : Kind → Option α) (others : List Goal)
    (found : α → List Goal)
    (h : step s g = do
      match ← s.accept? cls with
      | none => pure (others, s)
      | some (a, s₁) => pure (found a, s₁)) :
    Unfolds g s c s' ↔ s.next?.bind cls = none ∧ Meanings others s c s' ∨
      ∃ k a s₁, cls k = some a ∧ s.Takes [k] s₁ ∧ Meanings (found a) s₁ c s' := by
  simp only [Unfolds, h, bind_eq_ok]
  constructor
  · rintro ⟨goals, s₁, ⟨_ | ⟨a, s₂⟩, ha, hg⟩, hm⟩ <;>
      simp only [pure, Except.pure, Except.ok.injEq, Prod.mk.injEq] at hg <;>
      obtain ⟨rfl, rfl⟩ := hg
    · exact .inl ⟨accept?_eq_none.1 ha, hm⟩
    · obtain ⟨k, hk, ht⟩ := accept?_eq_some.1 ha
      exact .inr ⟨k, a, _, hk, ht, hm⟩
  · rintro (⟨hn, hm⟩ | ⟨k, a, s₁, hk, ht, hm⟩)
    · exact ⟨_, _, ⟨none, accept?_eq_none.2 hn, rfl⟩, hm⟩
    · exact ⟨_, _, ⟨some (a, s₁), accept?_eq_some.2 ⟨k, hk, ht⟩, rfl⟩, hm⟩

/-! ## Cutting what is read -/

namespace State

variable {k : Kind} {kinds kinds' : List Kind} {ms ms' qs qs' : List String}

theorem Reads.env_eq (h : s.Reads kinds ms qs s') : s'.env = s.env := h.1.env_eq

@[simp] theorem reads_nil : s.Reads [] [] [] s' ↔ s' = s := by simp [Reads]

theorem reads_append : s.Reads (kinds ++ kinds') (ms ++ ms') (qs ++ qs') s' ↔
    ∃ s₁, s.Reads kinds ms qs s₁ ∧ s₁.Reads kinds' ms' qs' s' := by
  simp only [Reads, takes_append, Bindings.allows_append]
  constructor
  · rintro ⟨⟨s₁, h₁, h₂⟩, ha, ha'⟩
    exact ⟨s₁, ⟨h₁, ha⟩, h₂, by rwa [h₁.env_eq]⟩
  · rintro ⟨s₁, ⟨h₁, ha⟩, h₂, ha'⟩
    exact ⟨⟨s₁, h₁, h₂⟩, ha, by rwa [h₁.env_eq] at ha'⟩

theorem reads_cons : s.Reads (k :: kinds) ms qs s' ↔
    ∃ s₁, s.Takes [k] s₁ ∧ s₁.Reads kinds ms qs s' := by
  have h := @reads_append s s' [k] kinds [] ms [] qs
  simpa [Reads] using h

theorem reads_snoc : s.Reads (kinds ++ [k]) ms qs s' ↔
    ∃ s₁, s.Reads kinds ms qs s₁ ∧ s₁.Takes [k] s' := by
  have h := @reads_append s s' kinds [k] ms [] qs []
  simpa [Reads] using h

theorem reads_mention {name : String} : s.Reads kinds (name :: ms) qs s' ↔
    ∃ target, s.env.bindings.resolve name = some target ∧ s.Reads kinds ms qs s' := by
  simp only [Reads, Bindings.allows_cons_mention, Bindings.Declares, Option.isSome_iff_exists]
  grind

theorem reads_qualifier {name : String} : s.Reads kinds ms (name :: qs) s' ↔
    s.env.bindings.Qualifies name ∧ s.Reads kinds ms qs s' := by
  simp only [Reads, Bindings.allows_cons_qualifier]
  grind

theorem reads_singleton : s.Reads [k] [] [] s' ↔ s.Takes [k] s' := by simp [Reads]

/-! ## What stands complete -/

/-- No name goes on before this token, nor does an expression. -/
theorem ends_of_next? {inName : Bool} (h : s.next? = some k) (hk : ¬ Extends (some k)) :
    s.Ends inName := fun _ => by rwa [h]

end State

end Compiler

end Jack

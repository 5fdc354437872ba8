import Jack.Proofs.Scopes
import Jack.Proofs.Tokens
import Jack.Syntax.Lowering
import Mathlib.Data.List.Find
import Mathlib.Logic.Equiv.Basic

/-!
# Renaming variables

A renaming changes the variables of a class where they are declared and where they are used, and the
names before the dots of calls that mean variables (`ClassDeclaration.rename`). Classes, types and
subroutines keep their names. If no variable gets a name that is to mean a class, the renamed names
mean in the renamed scopes what the names mean in the old ones (`resolve_rename`), inner scopes
hiding outer ones as before. So the class keeps the scoping rules, and its code is the same
(`ClassDeclaration.scoped_rename`, `ClassDeclaration.code_rename`).
-/

namespace Jack

open Syntax

/-- A symbol goes by an identifier, or it is the object of a method, which goes by a keyword. -/
def IsSymbolName (name : String) : Prop := name = Keyword.thisKeyword.text ∨ IsName name

/-- A one-to-one change of identifiers. -/
structure Renaming where
  toFun : String → String
  isName : ∀ {name}, IsName name → IsName (toFun name)
  injective : ∀ {name name'}, IsName name → IsName name' → toFun name = toFun name' → name = name'
  /-- A keyword is no identifier; only this one is the name of a symbol. -/
  this : toFun Keyword.thisKeyword.text = Keyword.thisKeyword.text

namespace Renaming

instance : CoeFun Renaming fun _ => String → String := ⟨toFun⟩

/-- Any one-to-one change of identifiers is a renaming. -/
def ofNames (f : String → String) (hname : ∀ {name}, IsName name → IsName (f name))
    (hinj : ∀ {name name'}, IsName name → IsName name' → f name = f name' → name = name') :
    Renaming where
  toFun name := if name = Keyword.thisKeyword.text then name else f name
  isName h := by
    rw [if_neg (h.ne_keyword .thisKeyword)]
    exact hname h
  injective h h' heq := by
    rw [if_neg (h.ne_keyword .thisKeyword), if_neg (h'.ne_keyword .thisKeyword)] at heq
    exact hinj h h' heq
  this := if_pos rfl

/-- Two identifiers change places. -/
def exchange {first second : String} (hfirst : IsName first) (hsecond : IsName second) : Renaming :=
  ofNames (Equiv.swap first second)
    (fun h => by
      rw [Equiv.swap_apply_def]
      split_ifs
      exacts [hsecond, hfirst, h])
    (fun _ _ heq => (Equiv.swap first second).injective heq)

variable (ρ : Renaming)

def symbol (s : Symbol) : Symbol := { s with name := ρ s.name }

def declared (e : Declared) : Declared := { e with name := ρ e.name }

theorem eq_iff {name name' : String} (h : IsSymbolName name) (h' : IsSymbolName name') :
    ρ name = ρ name' ↔ name = name' := by
  refine ⟨fun heq => ?_, congrArg ρ⟩
  obtain rfl | h := h <;> obtain rfl | h' := h'
  · rfl
  · rw [ρ.this] at heq
    exact absurd heq.symm ((ρ.isName h').ne_keyword .thisKeyword)
  · rw [ρ.this] at heq
    exact absurd heq ((ρ.isName h).ne_keyword .thisKeyword)
  · exact ρ.injective h h' heq

@[simp] theorem push_symbol (s : Symbol) : (ρ.symbol s).push = s.push := rfl

@[simp] theorem typeName_symbol (s : Symbol) : (ρ.symbol s).typeName = s.typeName := rfl

end Renaming

namespace Syntax

/-! ## Renamed trees -/

section Rename

variable (ρ : Renaming) (b : Bindings)

/-- A name before the dot of a call changes if it means a variable. -/
def Bindings.renameQualifier (name : String) : String := if b.Declares name then ρ name else name

mutual

def Term.rename : Term → Term
  | .group e => .group e.rename
  | .unary op t => .unary op t.rename
  | .variable name => .variable (ρ name)
  | .element array index => .element (ρ array) index.rename
  | .call c => .call c.rename
  | t => t

def Expression.rename : Expression → Expression
  | .term t => .term t.rename
  | .operation left op right => .operation left.rename op right.rename

def Call.rename : Call → Call
  | .own name arguments => .own name arguments.rename
  | .qualified qualifier name arguments =>
    .qualified (b.renameQualifier ρ qualifier) name arguments.rename

def Arguments.rename : Arguments → Arguments
  | .nil => .nil
  | .cons first rest => .cons first.rename rest.rename

end

mutual

def Statement.rename : Statement → Statement
  | .assign name value => .assign (ρ name) (value.rename ρ b)
  | .assignElement array index value =>
    .assignElement (ρ array) (index.rename ρ b) (value.rename ρ b)
  | .conditional condition body => .conditional (condition.rename ρ b) body.rename
  | .alternative condition body otherwise =>
    .alternative (condition.rename ρ b) body.rename otherwise.rename
  | .loop condition body => .loop (condition.rename ρ b) body.rename
  | .call c => .call (c.rename ρ b)
  | .giveBack value => .giveBack (value.map (·.rename ρ b))

def Block.rename : Block → Block
  | .nil => .nil
  | .cons first rest => .cons first.rename rest.rename

end

def Variables.rename (v : Variables) : Variables :=
  { v with first := ρ v.first, others := v.others.map ρ }

def Parameter.rename (p : Parameter) : Parameter := { p with name := ρ p.name }

def ClassVariables.rename (v : ClassVariables) : ClassVariables :=
  { v with declaration := v.declaration.rename ρ }

def SubroutineDeclaration.rename (d : SubroutineDeclaration) : SubroutineDeclaration :=
  { d with
    parameters := d.parameters.map (·.rename ρ)
    locals := d.locals.map (·.rename ρ)
    body := d.body.rename ρ b }

def ClassDeclaration.rename (k : ClassDeclaration) : ClassDeclaration :=
  { k with
    declarations := k.declarations.map (·.rename ρ)
    subroutines := k.subroutines.map fun d => d.rename ρ (bindings k d) }

end Rename

/-! ## The names of a renamed phrase -/

section Names

variable (ρ : Renaming) (b : Bindings)

mutual

theorem Term.names_rename : ∀ t : Term, (t.rename ρ b).mentions = t.mentions.map ρ ∧
    (t.rename ρ b).qualifiers = t.qualifiers.map (b.renameQualifier ρ)
  | .integer _ | .string _ | .true | .false | .null | .this | .variable _ => ⟨rfl, rfl⟩
  | .group e => e.names_rename
  | .unary _ t => t.names_rename
  | .element _ index => by
    simp only [Term.rename, Term.mentions, Term.qualifiers, index.names_rename, List.map_cons,
      and_self]
  | .call c => c.names_rename

theorem Expression.names_rename : ∀ e : Expression, (e.rename ρ b).mentions = e.mentions.map ρ ∧
    (e.rename ρ b).qualifiers = e.qualifiers.map (b.renameQualifier ρ)
  | .term t => t.names_rename
  | .operation left _ right => by
    simp only [Expression.rename, Expression.mentions, Expression.qualifiers, left.names_rename,
      right.names_rename, List.map_append, and_self]

theorem Call.names_rename : ∀ c : Call, (c.rename ρ b).mentions = c.mentions.map ρ ∧
    (c.rename ρ b).qualifiers = c.qualifiers.map (b.renameQualifier ρ)
  | .own _ arguments => arguments.names_rename
  | .qualified _ _ arguments => by
    simp only [Call.rename, Call.mentions, Call.qualifiers, arguments.names_rename, List.map_cons,
      and_self]

theorem Arguments.names_rename : ∀ arguments : Arguments,
    (arguments.rename ρ b).mentions = arguments.mentions.map ρ ∧
      (arguments.rename ρ b).qualifiers = arguments.qualifiers.map (b.renameQualifier ρ)
  | .nil => ⟨rfl, rfl⟩
  | .cons first rest => by
    simp only [Arguments.rename, Arguments.mentions, Arguments.qualifiers, first.names_rename,
      rest.names_rename, List.map_append, and_self]

end

mutual

theorem Statement.names_rename : ∀ st : Statement, (st.rename ρ b).mentions = st.mentions.map ρ ∧
    (st.rename ρ b).qualifiers = st.qualifiers.map (b.renameQualifier ρ)
  | .assign _ value => by
    simp only [Statement.rename, Statement.mentions, Statement.qualifiers, value.names_rename,
      List.map_cons, and_self]
  | .assignElement _ index value => by
    simp only [Statement.rename, Statement.mentions, Statement.qualifiers, index.names_rename,
      value.names_rename, List.map_append, List.map_cons, and_self]
  | .conditional condition body | .loop condition body => by
    simp only [Statement.rename, Statement.mentions, Statement.qualifiers, condition.names_rename,
      body.names_rename, List.map_append, and_self]
  | .alternative condition body otherwise => by
    simp only [Statement.rename, Statement.mentions, Statement.qualifiers, condition.names_rename,
      body.names_rename, otherwise.names_rename, List.map_append, and_self]
  | .call c => c.names_rename ρ b
  | .giveBack none => ⟨rfl, rfl⟩
  | .giveBack (some value) => value.names_rename ρ b

theorem Block.names_rename : ∀ body : Block, (body.rename ρ b).mentions = body.mentions.map ρ ∧
    (body.rename ρ b).qualifiers = body.qualifiers.map (b.renameQualifier ρ)
  | .nil => ⟨rfl, rfl⟩
  | .cons first rest => by
    simp only [Block.rename, Block.mentions, Block.qualifiers, first.names_rename,
      rest.names_rename, List.map_append, and_self]

end

end Names

/-! ## The code of a renamed phrase -/

section Code

variable (ρ : Renaming) (b : Bindings)

theorem Arguments.length_rename :
    ∀ arguments : Arguments, (arguments.rename ρ b).length = arguments.length
  | .nil => rfl
  | .cons _ rest => congrArg (· + 1) rest.length_rename

mutual

theorem Statement.counts_rename : ∀ st : Statement,
    (st.rename ρ b).ifs = st.ifs ∧ (st.rename ρ b).whiles = st.whiles
  | .assign .. | .assignElement .. | .call _ | .giveBack _ => ⟨rfl, rfl⟩
  | .conditional _ body | .loop _ body => by
    simp only [Statement.rename, Statement.ifs, Statement.whiles, body.counts_rename, and_self]
  | .alternative _ body otherwise => by
    simp only [Statement.rename, Statement.ifs, Statement.whiles, body.counts_rename,
      otherwise.counts_rename, and_self]

theorem Block.counts_rename : ∀ body : Block,
    (body.rename ρ b).ifs = body.ifs ∧ (body.rename ρ b).whiles = body.whiles
  | .nil => ⟨rfl, rfl⟩
  | .cons first rest => by
    simp only [Block.rename, Block.ifs, Block.whiles, first.counts_rename, rest.counts_rename,
      and_self]

end

end Code

/-- What the names mean under the first bindings, the renamed names mean under the second. -/
structure Bindings.Renames (ρ : Renaming) (b b' : Bindings) (mentions qualifiers : List String) :
    Prop where
  className : b'.className = b.className
  kind : b'.kind = b.kind
  mention : ∀ name ∈ mentions, b'.resolve (ρ name) = (b.resolve name).map ρ.symbol
  qualifier : ∀ name ∈ qualifiers,
    b'.resolve (b.renameQualifier ρ name) = (b.resolve name).map ρ.symbol

namespace Bindings.Renames

variable {ρ : Renaming} {b b' : Bindings} {name : String} {ms ms' qs qs' : List String}

theorem left (h : Renames ρ b b' (ms ++ ms') (qs ++ qs')) : Renames ρ b b' ms qs :=
  ⟨h.className, h.kind, (List.forall_mem_append.1 h.mention).1,
    (List.forall_mem_append.1 h.qualifier).1⟩

theorem right (h : Renames ρ b b' (ms ++ ms') (qs ++ qs')) : Renames ρ b b' ms' qs' :=
  ⟨h.className, h.kind, (List.forall_mem_append.1 h.mention).2,
    (List.forall_mem_append.1 h.qualifier).2⟩

theorem tail (h : Renames ρ b b' (name :: ms) qs) : Renames ρ b b' ms qs :=
  ⟨h.className, h.kind, (List.forall_mem_cons.1 h.mention).2, h.qualifier⟩

theorem arguments (h : Renames ρ b b' ms (name :: qs)) : Renames ρ b b' ms qs :=
  ⟨h.className, h.kind, h.mention, (List.forall_mem_cons.1 h.qualifier).2⟩

theorem this (h : Renames ρ b b' ms qs) : b'.this = b.this := by
  rw [Bindings.this, h.kind, Bindings.this]

theorem read (h : Renames ρ b b' (name :: ms) qs) : b'.read (ρ name) = b.read name := by
  rw [Bindings.read, h.mention name List.mem_cons_self, Option.map_map]
  rfl

theorem write (h : Renames ρ b b' (name :: ms) qs) : b'.write (ρ name) = b.write name := by
  rw [Bindings.write, h.mention name List.mem_cons_self, Option.map_map]
  rfl

mutual

theorem term_code : ∀ t : Term, Renames ρ b b' t.mentions t.qualifiers →
    (t.rename ρ b).code b' = t.code b
  | .integer _, _ | .string _, _ | .true, _ | .false, _ | .null, _ => rfl
  | .this, h => congrArg ([·]) h.this
  | .group e, h => expression_code e h
  | .unary op t, h => congrArg (· ++ [op.instruction]) (term_code t h)
  | .variable _, h => h.read
  | .element _ index, h => by
    rw [Term.rename, Term.code, h.read, expression_code index h.tail, Term.code]
  | .call c, h => call_code c h

theorem expression_code : ∀ e : Expression, Renames ρ b b' e.mentions e.qualifiers →
    (e.rename ρ b).code b' = e.code b
  | .term t, h => term_code t h
  | .operation left _ right, h => by
    rw [Expression.rename, Expression.code, expression_code left h.left, term_code right h.right,
      Expression.code]

theorem call_code : ∀ c : Call, Renames ρ b b' c.mentions c.qualifiers →
    (c.rename ρ b).code b' = c.code b
  | .own _ args, h => by
    rw [Call.rename, Call.code, h.this, h.className, arguments_code args h, args.length_rename,
      Call.code]
  | .qualified qualifier name args, h => by
    have hargs : (args.rename ρ b).code b' = args.code b := arguments_code args h.arguments
    have hmeans := h.qualifier qualifier List.mem_cons_self
    cases hresolve : b.resolve qualifier with
    | none =>
      have hsame : b.renameQualifier ρ qualifier = qualifier :=
        if_neg (by simp [Bindings.Declares, hresolve])
      rw [hresolve, hsame, Option.map_none] at hmeans
      simp only [Call.rename, Call.code, hsame, hmeans, hresolve, hargs, args.length_rename]
    | some s =>
      rw [hresolve] at hmeans
      simp only [Call.rename, Call.code, hmeans, hresolve, hargs, args.length_rename,
        Option.map_some, Renaming.push_symbol, Renaming.typeName_symbol]

theorem arguments_code : ∀ args : Arguments, Renames ρ b b' args.mentions args.qualifiers →
    (args.rename ρ b).code b' = args.code b
  | .nil, _ => rfl
  | .cons first rest, h => by
    rw [Arguments.rename, Arguments.code, expression_code first h.left, arguments_code rest h.right,
      Arguments.code]

end

mutual

theorem statement_code (i w : Nat) : ∀ st : Statement, Renames ρ b b' st.mentions st.qualifiers →
    (st.rename ρ b).code b' i w = st.code b i w
  | .assign _ value, h => by
    rw [Statement.rename, Statement.code, h.write, expression_code value h.tail, Statement.code]
  | .assignElement array index value, h => by
    have hread : b'.read (ρ array) = b.read array := h.read
    rw [Statement.rename, Statement.code, hread, expression_code index h.left.tail,
      expression_code value h.right, Statement.code]
  | .conditional condition body, h => by
    rw [Statement.rename, Statement.code, expression_code condition h.left,
      block_code _ _ body h.right, Statement.code]
  | .alternative condition body otherwise, h => by
    obtain ⟨hifs, hwhiles⟩ := body.counts_rename ρ b
    rw [Statement.rename, Statement.code, expression_code condition h.left.left,
      block_code _ _ body h.left.right, hifs, hwhiles, block_code _ _ otherwise h.right,
      Statement.code]
  | .loop condition body, h => by
    rw [Statement.rename, Statement.code, expression_code condition h.left,
      block_code _ _ body h.right, Statement.code]
  | .call c, h => congrArg (· ++ _) (call_code c h)
  | .giveBack none, _ => rfl
  | .giveBack (some value), h => congrArg (· ++ _) (expression_code value h)

theorem block_code (i w : Nat) : ∀ body : Block, Renames ρ b b' body.mentions body.qualifiers →
    (body.rename ρ b).code b' i w = body.code b i w
  | .nil, _ => rfl
  | .cons first rest, h => by
    obtain ⟨hifs, hwhiles⟩ := first.counts_rename ρ b
    rw [Block.rename, Block.code, statement_code _ _ first h.left, hifs, hwhiles,
      block_code _ _ rest h.right, Block.code]

end

end Bindings.Renames

/-! ## Renamed scopes -/

section Scopes

variable (ρ : Renaming) {k : ClassDeclaration} {d : SubroutineDeclaration} {b : Bindings}
  {ds : List Declared} {name : String}

namespace Bindings

def rename (b : Bindings) : Bindings := { b with visible := b.visible.map ρ.symbol }

def Named (b : Bindings) : Prop := ∀ s ∈ b.visible, IsSymbolName s.name

/-- A renamed variable is found under its new name where it was found under its old one, hidden by
no other and hiding what it hid. -/
theorem resolve_rename (hb : b.Named) (h : IsSymbolName name) :
    (b.rename ρ).resolve (ρ name) = (b.resolve name).map ρ.symbol := by
  rw [resolve, rename, List.find?_map, resolve]
  congr 1
  exact List.find?_congr fun s hs => decide_eq_decide.2 (ρ.eq_iff (hb s hs) h)

theorem isSymbolName_of_declares (hb : b.Named) (h : b.Declares name) : IsSymbolName name := by
  obtain ⟨s, hs⟩ := Option.isSome_iff_exists.1 h
  have hname : s.name = name := by simpa using List.find?_some hs
  rw [← hname]
  exact hb s (List.mem_of_find?_eq_some hs)

/-- What is no variable is none after a renaming that gives no variable its name. -/
theorem resolve_rename_of_free (hfree : ¬ b.Declares name)
    (hapart : ∀ s ∈ b.visible, s.name ≠ name → ρ s.name ≠ name) :
    (b.rename ρ).resolve name = (b.resolve name).map ρ.symbol := by
  rw [Declares, Option.not_isSome_iff_eq_none] at hfree
  rw [hfree, Option.map_none, resolve, List.find?_eq_none]
  intro s' hs'
  obtain ⟨s, hs, rfl⟩ := List.mem_map.1 hs'
  have hother : s.name ≠ name := by simpa using List.find?_eq_none.1 hfree s hs
  rw [decide_eq_true_eq]
  exact hapart s hs hother

end Bindings

/-! ### Declarations -/

theorem symbols_map_declared (ds : List Declared) :
    symbols (ds.map ρ.declared) = (symbols ds).map ρ.symbol := by
  simp only [symbols, List.zipIdx_map, List.map_map, ← List.map_take, List.countP_map]
  rfl

theorem namesOnce_map_declared (h : ∀ e ∈ ds, IsName e.name) (honce : NamesOnce ds) :
    NamesOnce (ds.map ρ.declared) := by
  have hnames : (ds.map ρ.declared).map (·.name) = (ds.map (·.name)).map ρ := by
    rw [List.map_map, List.map_map]
    rfl
  rw [NamesOnce, hnames]
  refine honce.map_on fun name hname name' hname' => ρ.injective ?_ ?_
  · obtain ⟨e, he, rfl⟩ := List.mem_map.1 hname
    exact h e he
  · obtain ⟨e, he, rfl⟩ := List.mem_map.1 hname'
    exact h e he

theorem Variables.declared_rename (v : Variables) (kind : Symbol.Kind) :
    (v.rename ρ).declared kind = (v.declared kind).map ρ.declared := by
  simp only [Variables.declared, Variables.names, Variables.rename, List.map_cons, List.map_map]
  rfl

theorem ClassDeclaration.declared_rename (k : ClassDeclaration) :
    (k.rename ρ).declared = k.declared.map ρ.declared := by
  simp only [ClassDeclaration.declared, ClassDeclaration.rename, List.flatMap_map, List.map_flatMap,
    ClassVariables.declared, ClassVariables.rename, Variables.declared_rename]

theorem SubroutineDeclaration.declared_rename (d : SubroutineDeclaration) (b : Bindings) :
    (d.rename ρ b).declared = d.declared.map ρ.declared := by
  simp only [SubroutineDeclaration.declared, SubroutineDeclaration.rename, List.map_append,
    List.flatMap_map, List.map_flatMap, List.map_map, Variables.declared_rename]
  rfl

theorem SubroutineDeclaration.map_implicit (d : SubroutineDeclaration) (className : String) :
    (d.implicit className).map ρ.declared = d.implicit className := by
  unfold implicit
  split
  · simp only [List.map_singleton, Renaming.declared, ρ.this]
  · rfl

theorem bindings_rename (k : ClassDeclaration) (d : SubroutineDeclaration) (b : Bindings) :
    bindings (k.rename ρ) (d.rename ρ b) = (bindings k d).rename ρ := by
  have himplicit : (d.rename ρ b).implicit k.name = (d.implicit k.name).map ρ.declared :=
    (d.map_implicit ρ k.name).symm
  have hvisible : symbols ((d.rename ρ b).implicit k.name ++ (d.rename ρ b).declared) ++
      symbols (k.rename ρ).declared = (bindings k d).visible.map ρ.symbol := by
    rw [himplicit, d.declared_rename, k.declared_rename, ← List.map_append, symbols_map_declared,
      symbols_map_declared, ← List.map_append, bindings]
  exact congrArg (Bindings.mk k.name d.kind) hvisible

/-- What a class and its subroutines declare are identifiers. -/
structure ClassDeclaration.Named (k : ClassDeclaration) : Prop where
  declared : ∀ e ∈ k.declared, IsName e.name
  inner : ∀ d ∈ k.subroutines, ∀ e ∈ d.declared, IsName e.name

/-- No variable gets a name before a dot that means no variable in its subroutine. -/
def ClassDeclaration.Apart (k : ClassDeclaration) : Prop :=
  ∀ d ∈ k.subroutines, ∀ name ∈ d.body.qualifiers, ¬ (bindings k d).Declares name →
    ∀ e ∈ d.declared ++ k.declared, ρ e.name ≠ name

instance (k : ClassDeclaration) : Decidable (k.Apart ρ) :=
  inferInstanceAs (Decidable (∀ d ∈ k.subroutines, ∀ name ∈ d.body.qualifiers, _ → _))

/-- A visible symbol is the object of a method or has been declared. -/
theorem declared_of_mem_visible {s : Symbol} (h : s ∈ (bindings k d).visible) :
    s.name = Keyword.thisKeyword.text ∨ ∃ e ∈ d.declared ++ k.declared, e.name = s.name := by
  have hname : s.name ∈ (bindings k d).visible.map (·.name) := List.mem_map_of_mem h
  rw [bindings, List.map_append, map_name_symbols, map_name_symbols, ← List.map_append,
    List.append_assoc, List.map_append, List.mem_append] at hname
  rcases hname with hname | hname
  · unfold SubroutineDeclaration.implicit at hname
    split at hname
    · exact .inl (List.mem_singleton.1 hname)
    · simp at hname
  · exact .inr (List.mem_map.1 hname)

theorem named_bindings (hk : k.Named) (hd : d ∈ k.subroutines) : (bindings k d).Named := by
  intro s hs
  refine (declared_of_mem_visible hs).imp_right ?_
  rintro ⟨e, he, heq⟩
  rw [← heq]
  exact (List.mem_append.1 he).elim (hk.inner d hd e) (hk.declared e)

/-! ### Classes -/

section Class

variable (hk : k.Named) (hapart : k.Apart ρ) (hd : d ∈ k.subroutines) (h : d.Scoped (bindings k d))

include hk hapart hd h

/-- What the names of a subroutine mean, the renamed names mean in the renamed subroutine. -/
theorem renames_bindings :
    (bindings k d).Renames ρ ((bindings k d).rename ρ) d.body.mentions d.body.qualifiers where
  className := rfl
  kind := rfl
  mention name hname := by
    have hnamed := named_bindings hk hd
    exact Bindings.resolve_rename ρ hnamed
      (Bindings.isSymbolName_of_declares hnamed (h.declares name hname))
  qualifier name hname := by
    have hnamed := named_bindings hk hd
    unfold Bindings.renameQualifier
    split
    · rename_i hdeclares
      exact Bindings.resolve_rename ρ hnamed (Bindings.isSymbolName_of_declares hnamed hdeclares)
    · rename_i hfree
      refine Bindings.resolve_rename_of_free ρ hfree fun s hs hother => ?_
      obtain hthis | ⟨e, he, heq⟩ := declared_of_mem_visible hs
      · rwa [hthis, ρ.this, ← hthis]
      · rw [← heq]
        exact hapart d hd name hname hfree e he

theorem SubroutineDeclaration.scoped_rename :
    (d.rename ρ (bindings k d)).Scoped ((bindings k d).rename ρ) := by
  have hrenames := renames_bindings ρ hk hapart hd h
  refine ⟨?_, ?_, ?_⟩
  · rw [declared_rename]
    exact namesOnce_map_declared ρ (hk.inner d hd) h.names_once
  · rw [SubroutineDeclaration.rename, (d.body.names_rename ρ _).1]
    intro name' hname'
    obtain ⟨name, hname, rfl⟩ := List.mem_map.1 hname'
    rw [Bindings.Declares, hrenames.mention name hname, Option.isSome_map]
    exact h.declares name hname
  · rw [SubroutineDeclaration.rename, (d.body.names_rename ρ _).2]
    intro name' hname'
    obtain ⟨name, hname, rfl⟩ := List.mem_map.1 hname'
    rw [Bindings.Qualifies, hrenames.qualifier name hname]
    intro s' hs'
    obtain ⟨s, hs, rfl⟩ := Option.map_eq_some_iff.1 hs'
    exact h.qualifies name hname s hs

theorem SubroutineDeclaration.code_rename (i w : Nat) :
    (d.rename ρ (bindings k d)).code (k.rename ρ) i w = d.code k i w := by
  have hlocals : ((d.locals.map (·.rename ρ)).flatMap (·.names)).length =
      (d.locals.flatMap (·.names)).length := by
    simp [List.length_flatMap, Variables.names, Variables.rename, Function.comp_def]
  have hfields : (k.rename ρ).declared.countP (·.kind = .field) =
      k.declared.countP (·.kind = .field) := by
    rw [ClassDeclaration.declared_rename, List.countP_map]
    rfl
  have hbody := (renames_bindings ρ hk hapart hd h).block_code i w d.body
  rw [SubroutineDeclaration.code, bindings_rename, hfields]
  simp only [SubroutineDeclaration.rename, ClassDeclaration.rename]
  rw [hlocals, hbody, SubroutineDeclaration.code]

end Class

/-- A renamed class keeps the scoping rules. -/
theorem ClassDeclaration.scoped_rename (hk : k.Named) (hapart : k.Apart ρ) (h : k.Scoped) :
    (k.rename ρ).Scoped := by
  refine ⟨?_, ?_⟩
  · rw [declared_rename]
    exact namesOnce_map_declared ρ hk.declared h.names_once
  · intro d' hd'
    obtain ⟨d, hd, rfl⟩ := List.mem_map.1 hd'
    rw [bindings_rename]
    exact d.scoped_rename ρ hk hapart hd (h.subroutines d hd)

/-- A renamed class has the code of the class. -/
theorem ClassDeclaration.code_rename (hk : k.Named) (hapart : k.Apart ρ) (h : k.Scoped) :
    (k.rename ρ).code = k.code := by
  have hcodes : ∀ ds : List SubroutineDeclaration, (∀ d ∈ ds, d ∈ k.subroutines) → ∀ i w,
      subroutinesCode (k.rename ρ) i w (ds.map fun d => d.rename ρ (bindings k d)) =
        subroutinesCode k i w ds := by
    intro ds
    induction ds with
    | nil => exact fun _ _ _ => rfl
    | cons d ds ih =>
      intro hds i w
      obtain ⟨hd, hds⟩ := List.forall_mem_cons.1 hds
      obtain ⟨hifs, hwhiles⟩ := d.body.counts_rename ρ (bindings k d)
      rw [List.map_cons, subroutinesCode, d.code_rename ρ hk hapart hd (h.subroutines d hd), ih hds,
        SubroutineDeclaration.rename, hifs, hwhiles, subroutinesCode]
  exact hcodes k.subroutines (fun _ hd => hd) 0 0

end Scopes

end Syntax

end Jack

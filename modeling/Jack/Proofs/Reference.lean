import Jack.Proofs.MeaningRun
import Jack.Proofs.Resolution
import Jack.Proofs.Scopes

/-!
# The compiler as three passes

Reading a class, checking its names and lowering it to code can be done one after the other: a class
compiles just when its tokens are those of a tree that keeps the scoping rules, and to the code of
that tree (`exists_tree_of_compileClass`, `compileClass_of_tree`).
-/

namespace Jack

open Syntax
open Token (Kind)

/-! ## Inside a subroutine -/

namespace Environment

/-- The declarations of the class have been made. -/
structure Knows (env : Environment) (k : ClassDeclaration) : Prop where
  className : env.className = k.name
  classScope : env.classScope = Scope.empty.defineAll k.declared

/-- The environment in front of the body of a subroutine. -/
def inside (env : Environment) (d : SubroutineDeclaration) : Environment :=
  { env with
    subroutine := some ⟨d.name, d.kind⟩
    subroutineScope := Scope.empty.defineAll (d.implicit env.className ++ d.declared) }

variable {env env' : Environment} {k : ClassDeclaration} {d : SubroutineDeclaration}

theorem kind_of_mem_class {e : Declared} (h : e ∈ k.declared) :
    e.kind = .staticVar ∨ e.kind = .field := by
  simp only [ClassDeclaration.declared, ClassVariables.declared, Variables.declared,
    List.mem_flatMap, List.mem_map] at h
  obtain ⟨v, -, name, -, rfl⟩ := h
  cases v.ownership <;> simp [Ownership.kind]

theorem kind_of_mem_subroutine {e : Declared} (h : e ∈ d.declared) :
    e.kind = .argument ∨ e.kind = .localVar := by
  simp only [SubroutineDeclaration.declared, Variables.declared, List.mem_append, List.mem_map,
    List.mem_flatMap] at h
  rcases h with ⟨p, -, rfl⟩ | ⟨v, -, name, -, rfl⟩
  · exact .inl rfl
  · exact .inr rfl

/-- The environment behind the declarations of a class. -/
def within (env : Environment) (k : ClassDeclaration) : Environment :=
  { env with className := k.name, classScope := Scope.empty.defineAll k.declared }

theorem declareAll_eq_within :
    (env.beginClass k.name).declareAll k.declared = some env' ↔
      NamesOnce k.declared ∧ env' = env.within k := by
  rw [declareAll_of_class fun _ => kind_of_mem_class, Option.map_eq_some_iff]
  simp only [Scope.declareAll_eq_some, beginClass, Scope.lookup_empty, implies_true, and_true]
  constructor
  · rintro ⟨_, ⟨hc, rfl⟩, rfl⟩
    exact ⟨hc, rfl⟩
  · rintro ⟨hc, rfl⟩
    exact ⟨_, ⟨hc, rfl⟩, rfl⟩

theorem subroutineScope_beginSubroutine :
    (env.beginSubroutine d.name d.kind).subroutineScope =
      Scope.empty.defineAll (d.implicit env.className) := by
  simp only [beginSubroutine, SubroutineDeclaration.implicit]
  split <;> rfl

theorem name_of_mem_implicit {e : Declared} {className : String} (h : e ∈ d.implicit className) :
    e.name = Keyword.thisKeyword.text := by
  simp only [SubroutineDeclaration.implicit] at h
  split at h <;> simp_all

theorem namesOnce_implicit (className : String) : NamesOnce (d.implicit className) := by
  simp only [SubroutineDeclaration.implicit]
  split <;> simp [NamesOnce]

section Names

variable (hthis : ∀ e ∈ d.declared, e.name ≠ Keyword.thisKeyword.text)

include hthis

theorem namesOnce_inside (hd : NamesOnce d.declared) (className : String) :
    NamesOnce (d.implicit className ++ d.declared) :=
  namesOnce_append.2 ⟨namesOnce_implicit className, hd, fun _ he e' he' h =>
    hthis e' he' (h ▸ name_of_mem_implicit he)⟩

theorem declareAll_eq_inside :
    (env.beginSubroutine d.name d.kind).declareAll d.declared = some env' ↔
      NamesOnce d.declared ∧ env' = env.inside d := by
  have hfree : ∀ e ∈ d.declared,
      (Scope.empty.defineAll (d.implicit env.className)).lookup e.name = none := by
    intro e he
    rw [Scope.lookup_defineAll (namesOnce_implicit _), List.find?_eq_none]
    intro s hs
    have hmem := List.mem_map_of_mem (f := (·.name)) hs
    rw [map_name_symbols] at hmem
    obtain ⟨e', he', hname⟩ := List.mem_map.1 hmem
    simp only [decide_eq_true_eq, ← hname, name_of_mem_implicit he']
    exact fun h => hthis e he h.symm
  rw [declareAll_of_subroutine fun _ => kind_of_mem_subroutine, Option.map_eq_some_iff]
  simp only [Scope.declareAll_eq_some, subroutineScope_beginSubroutine]
  constructor
  · rintro ⟨_, ⟨⟨hd, -⟩, rfl⟩, rfl⟩
    exact ⟨hd, by rw [inside, Scope.defineAll_append]; rfl⟩
  · rintro ⟨hd, rfl⟩
    exact ⟨_, ⟨⟨hd, hfree⟩, rfl⟩, by rw [inside, Scope.defineAll_append]; rfl⟩

end Names

theorem agree_inside (hk : env.Knows k) (hc : NamesOnce k.declared)
    (hd : NamesOnce (d.implicit k.name ++ d.declared)) :
    (env.inside d).bindings.Agree (Syntax.bindings k d) := by
  refine ⟨hk.className, rfl, fun name => ?_⟩
  rw [resolve_bindings, find?, inside, hk.className, hk.classScope, Scope.lookup_defineAll hd,
    Scope.lookup_defineAll hc, Bindings.resolve, Syntax.bindings, List.find?_append]

theorem prologueCode_inside (hk : env.Knows k) :
    Compiler.prologueCode (env.inside d) d.kind =
      .function (k.name ++ "." ++ d.name) (d.locals.flatMap (·.names)).length ::
        Compiler.bindObject (k.declared.countP (·.kind = .field)) d.kind := by
  have hlocals : (d.locals.flatMap (·.declared .localVar)).countP (·.kind = .localVar) =
      (d.locals.flatMap (·.names)).length := by
    rw [List.countP_eq_length.2]
    · simp [List.length_flatMap, Variables.declared]
    · simp only [Variables.declared, List.mem_flatMap, List.mem_map, decide_eq_true_eq]
      rintro _ ⟨v, -, name, -, rfl⟩
      rfl
  have himplicit : (d.implicit k.name).countP (·.kind = .localVar) = 0 := by
    simp only [SubroutineDeclaration.implicit]
    split <;> simp
  have hparameters : (d.parameters.map Parameter.declared).countP (·.kind = .localVar) = 0 := by
    simp [List.countP_eq_zero, Parameter.declared]
  simp only [Compiler.prologueCode, inside, hk.className, hk.classScope, currentFunction, qualify,
    Option.map_some, Option.getD_some, Scope.count_defineAll, Scope.count_empty, Nat.zero_add,
    List.countP_append, SubroutineDeclaration.declared, himplicit, hparameters, hlocals]

end Environment

theorem Syntax.mem_parameterTokens {p : Parameter} {ps : List Parameter} {t : Token.Kind} (h : p ∈ ps)
    (ht : t ∈ p.tokens) : t ∈ parameterTokens ps := by
  cases ps with
  | nil => simp at h
  | cons q ps =>
    rcases List.mem_cons.1 h with rfl | h
    · exact List.mem_append_left _ ht
    · exact List.mem_append_right _ (List.mem_flatMap.2 ⟨p, h, List.mem_cons_of_mem _ ht⟩)

namespace Compiler

open State

variable {s s' s₁ : State} {c : List Instruction} {k : ClassDeclaration}
  {d : SubroutineDeclaration}

theorem identifier_mem_variables {v : Variables} {name : String} (h : name ∈ v.names) :
    .identifier name ∈ v.tokens := by
  rcases List.mem_cons.1 h with rfl | h
  · simp [Variables.tokens]
  · simp only [Variables.tokens, List.mem_append, List.mem_cons, List.mem_flatMap]
    exact .inl (.inr (.inr ⟨name, h, by simp⟩))

/-- What a subroutine declares, its tokens name. -/
theorem identifier_mem_tokens {e : Declared} (h : e ∈ d.declared) :
    .identifier e.name ∈ d.tokens := by
  simp only [SubroutineDeclaration.declared, Variables.declared, List.mem_append, List.mem_map,
    List.mem_flatMap] at h
  rcases h with ⟨p, hp, rfl⟩ | ⟨v, hv, name, hname, rfl⟩
  · have hmem : .identifier p.name ∈ parameterTokens d.parameters :=
      mem_parameterTokens hp (by simp [Parameter.tokens])
    simp [SubroutineDeclaration.tokens, Parameter.declared, hmem]
  · have hmem : .identifier name ∈
        d.locals.flatMap fun v => .keyword .varKeyword :: v.tokens :=
      List.mem_flatMap.2 ⟨v, hv, List.mem_cons_of_mem _ (identifier_mem_variables hname)⟩
    simp only [SubroutineDeclaration.tokens, List.mem_append, List.mem_cons]
    simp [hmem]

theorem tokens_eq (d : SubroutineDeclaration) : d.tokens =
    ([kindToken d.kind, (d.returnType.map (·.token)).getD (.keyword .voidKeyword),
      .identifier d.name] ++
      (.symbol '(' :: parameterTokens d.parameters ++ .symbol ')' :: .symbol '{' ::
        d.locals.flatMap fun v => .keyword .varKeyword :: v.tokens)) ++
      (d.body.tokens ++ [.symbol '}']) := by
  simp [SubroutineDeclaration.tokens]

section Class

variable (hk : s.env.Knows k) (hc : NamesOnce k.declared)
  (hnames : ∀ t ∈ s.input.tokens, t.kind ≠ .identifier Keyword.thisKeyword.text)

include hk hc hnames

/-- What it takes to compile a subroutine: its tokens, and that it keeps the rules. -/
theorem enters_iff : s.Enters d c s' ↔
    s.Takes d.tokens { s' with env := s.env } ∧ d.Scoped (bindings k d) ∧
      c = d.code k s.env.ifCount s.env.whileCount ∧
      s'.env = (s.env.inside d).advance d.body.ifs d.body.whiles := by
  have hthis : ∀ {s'}, s.Takes d.tokens s' → ∀ e ∈ d.declared, e.name ≠ Keyword.thisKeyword.text := by
    intro s' ht e he h
    obtain ⟨t, hmem, hkind⟩ := ht.mem (identifier_mem_tokens he)
    exact hnames t hmem (h ▸ hkind)
  have hcode : ∀ {b : Bindings}, b.Agree (bindings k d) →
      Compiler.prologueCode (s.env.inside d) d.kind ++
        d.body.code b s.env.ifCount s.env.whileCount = d.code k s.env.ifCount s.env.whileCount := by
    intro b hb
    rw [Environment.prologueCode_inside hk, hb.block_code]
    rfl
  constructor
  · rintro ⟨s₁, s₂, h₁, ⟨s₃, env, h₂, hd, rfl⟩, ⟨s₄, ⟨h₃, ha⟩, rfl⟩, rfl⟩
    obtain ⟨s₅, h₄, rfl⟩ := takes_withEnv.1 h₂
    obtain ⟨s₆, h₅, rfl⟩ := (takes_withEnv (s := s₅)).1 h₃
    have ht : s.Takes d.tokens s₆ := by
      rw [tokens_eq]
      exact takes_append.2 ⟨s₅, takes_append.2 ⟨s₁, h₁, h₄⟩, h₅⟩
    obtain ⟨honce, rfl⟩ := (Environment.declareAll_eq_inside (hthis ht)).1 hd
    have hagree := Environment.agree_inside hk hc
      (Environment.namesOnce_inside (hthis ht) honce k.name)
    refine ⟨?_, ⟨honce, fun name h => (hagree.declares name).1 (ha.1 name h),
      fun name h => (hagree.qualifies name).1 (ha.2 name h)⟩, hcode hagree, rfl⟩
    rwa [← ht.env_eq]
  · rintro ⟨ht, ⟨honce, hdeclares, hqualifies⟩, rfl, henv⟩
    have hagree := Environment.agree_inside hk hc
      (Environment.namesOnce_inside (hthis ht) honce k.name)
    have htokens := ht
    rw [tokens_eq] at htokens
    obtain ⟨s₅, h, h₅⟩ := takes_append.1 htokens
    obtain ⟨s₁, h₁, h₄⟩ := takes_append.1 h
    refine ⟨s₁, { s₅ with env := s.env.inside d }, h₁,
      ⟨_, s.env.inside d, takes_withEnv.2 ⟨s₅, h₄, rfl⟩,
        (Environment.declareAll_eq_inside (hthis ht)).2 ⟨honce, rfl⟩, rfl⟩,
      ⟨_, ⟨takes_withEnv.2 ⟨_, h₅, rfl⟩, fun name h => (hagree.declares name).2 (hdeclares name h),
        fun name h => (hagree.qualifies name).2 (hqualifies name h)⟩, ?_⟩, (hcode hagree).symm⟩
    rw [← henv]

/-- The same for subroutines in a row. -/
theorem entersAll_iff {ds : List SubroutineDeclaration} :
    (∃ env, s.EntersAll ds c { s' with env }) ↔
      s.Takes (ds.flatMap (·.tokens)) { s' with env := s.env } ∧
        (∀ d ∈ ds, d.Scoped (bindings k d)) ∧
        c = subroutinesCode k s.env.ifCount s.env.whileCount ds := by
  induction ds generalizing s c with
  | nil =>
    simp only [EntersAll, List.flatMap_nil, takes_nil, List.not_mem_nil, subroutinesCode,
      false_implies, implies_true, true_and]
    constructor
    · rintro ⟨env, rfl, h⟩
      exact ⟨by rw [← h], rfl⟩
    · rintro ⟨h, rfl⟩
      exact ⟨s.env, rfl, h⟩
  | cons d ds ih =>
    -- What is known of the class is still known behind the subroutine.
    have hknows : ∀ {s₁ : State}, s₁.env = (s.env.inside d).advance d.body.ifs d.body.whiles →
        s₁.env.Knows k ∧ s₁.env.ifCount = s.env.ifCount + d.body.ifs ∧
          s₁.env.whileCount = s.env.whileCount + d.body.whiles := by
      intro s₁ h
      rw [h]
      exact ⟨⟨hk.className, hk.classScope⟩, rfl, rfl⟩
    simp only [EntersAll, enters_iff hk hc hnames, List.flatMap_cons, List.forall_mem_cons,
      subroutinesCode]
    constructor
    · rintro ⟨env, _, s₁, _, ⟨ht, hd, rfl, henv⟩, hds, rfl⟩
      obtain ⟨hk₁, hifs, hwhiles⟩ := hknows henv
      obtain ⟨hts, hscoped, rfl⟩ := (ih hk₁ fun t h => hnames t (ht.subset t h)).1 ⟨env, hds⟩
      refine ⟨takes_append.2 ⟨_, ht, takes_withEnv.2 ⟨_, hts, rfl⟩⟩, ⟨hd, hscoped⟩, ?_⟩
      rw [hifs, hwhiles]
    · rintro ⟨ht, ⟨hd, hscoped⟩, rfl⟩
      obtain ⟨s₁, hd₁, hts⟩ := takes_append.1 ht
      obtain ⟨hk₁, hifs, hwhiles⟩ := @hknows
        { s₁ with env := (s.env.inside d).advance d.body.ifs d.body.whiles } rfl
      obtain ⟨env, hall⟩ := (ih hk₁ fun t h => hnames t (hd₁.subset t h)).2
        ⟨takes_withEnv.2 ⟨_, hts, rfl⟩, hscoped, rfl⟩
      refine ⟨env, _, _, _, ⟨?_, hd, rfl, rfl⟩, hall, by rw [hifs, hwhiles]⟩
      rwa [← hd₁.env_eq]

end Class

/-- What it takes to compile a class: its tokens, and that it keeps the rules. -/
theorem meaning_classDeclaration_iff
    (hnames : ∀ t ∈ s.input.tokens, t.kind ≠ .identifier Keyword.thisKeyword.text)
    (hifs : s.env.ifCount = 0) (hwhiles : s.env.whileCount = 0) :
    (∃ s', Meaning .classDeclaration s c s') ↔
      ∃ k : ClassDeclaration, (∃ s', s.Takes k.tokens s' ∧ s'.next? = none) ∧ k.Scoped ∧
        c = k.code := by
  have htokens : ∀ k : ClassDeclaration, k.tokens = [.keyword .classKeyword, .identifier k.name] ++
      ((.symbol '{' :: k.declarations.flatMap ClassVariables.tokens) ++
        (k.subroutines.flatMap (·.tokens) ++ [.symbol '}'])) := by
    simp [ClassDeclaration.tokens]
  constructor
  · rintro ⟨s', k, s₀, hclass, s₁, s₂, s₃, hname, ⟨s₄, env, h₄, hd, rfl⟩, hsubs, hend, hn⟩
    obtain ⟨hc, rfl⟩ := Environment.declareAll_eq_within.1 hd
    obtain ⟨s₅, h₅, rfl⟩ := (takes_withEnv (s := s₁)).1 h₄
    have hhead := takes_append.2 ⟨s₁, takes_cons.2 ⟨s₀, hclass, hname⟩, h₅⟩
    have hmid := hsubs
    rw [← show ({ s₃ with env := s₃.env } : State) = s₃ from rfl] at hmid
    obtain ⟨ht, hscoped, rfl⟩ := (entersAll_iff (s := { s₅ with env := s₀.env.within k })
      ⟨rfl, rfl⟩ hc fun t h => hnames t (hhead.subset t h)).1 ⟨_, hmid⟩
    obtain ⟨s₆, h₆, heq⟩ := (takes_withEnv (s := s₅)).1 ht
    have hinput : s₃.input = s₆.input := (State.mk.injEq .. ▸ heq).1
    obtain ⟨s₇, h₇, rfl⟩ := (takes_withEnv (s := s₆)).1 (show Takes [.symbol '}']
      { s₆ with env := s₃.env } s' by rw [← hinput]; exact hend)
    refine ⟨k, ⟨s₇, ?_, hn⟩, ⟨hc, hscoped⟩, ?_⟩
    · rw [htokens, ← List.append_assoc]
      exact takes_append.2 ⟨s₅, hhead, takes_append.2 ⟨s₆, h₆, h₇⟩⟩
    · simp only [Environment.within, hclass.env_eq, hifs, hwhiles]
      rfl
  · rintro ⟨k, ⟨s', ht, hn⟩, ⟨hc, hscoped⟩, rfl⟩
    rw [htokens, ← List.append_assoc] at ht
    obtain ⟨s₅, hhead, htail⟩ := takes_append.1 ht
    obtain ⟨s₁, hclass, h₅⟩ := takes_append.1 hhead
    obtain ⟨s₀, hclass, hname⟩ := takes_cons.1 hclass
    obtain ⟨s₆, h₆, h₇⟩ := takes_append.1 htail
    obtain ⟨env, hsubs⟩ := (entersAll_iff (s := { s₅ with env := s₀.env.within k })
      ⟨rfl, rfl⟩ hc fun t h => hnames t (hhead.subset t h)).2
        ⟨takes_withEnv.2 ⟨s₆, h₆, rfl⟩, hscoped, rfl⟩
    refine ⟨{ s' with env }, k, s₀, hclass, s₁, _, _, hname,
      ⟨{ s₅ with env := s₀.env.beginClass k.name }, _, takes_withEnv.2 ⟨s₅, h₅, rfl⟩, Environment.declareAll_eq_within.2 ⟨hc, rfl⟩, rfl⟩, ?_,
      takes_withEnv.2 ⟨s', h₇, rfl⟩, hn⟩
    have hcounts : k.code = subroutinesCode k (s₀.env.within k).ifCount
        (s₀.env.within k).whileCount k.subroutines := by
      simp only [Environment.within, hclass.env_eq, hifs, hwhiles]
      rfl
    rw [hcounts]
    exact hsubs

theorem takes_all_iff {kinds : List Kind} (hne : kinds ≠ []) :
    (∃ s', s.Takes kinds s' ∧ s'.next? = none) ↔
      s.input.stop = none ∧ kinds = s.input.tokens.map (·.kind) := by
  constructor
  · rintro ⟨s', ht, hn⟩
    have hnil : s'.input.tokens = [] := by simpa [next?, current?] using hn
    obtain ⟨⟨ts, hts, rfl⟩, -, -, hstop⟩ := takes_iff.1 ht
    rw [hnil, List.append_nil] at hts
    exact ⟨(hstop hne).resolve_left (by simp [hnil]), by rw [hts]⟩
  · rintro ⟨hstop, rfl⟩
    exact ⟨⟨⟨[], none⟩, s.env⟩, takes_iff.2 ⟨⟨s.input.tokens, by simp, rfl⟩, hstop.symm, rfl,
      fun _ => .inr hstop⟩, rfl⟩

end Compiler

/-! ## Sources -/

/-- The kinds of the tokens of a source. -/
def Source.kinds (source : Source) : List Kind := (TokenStream.ofSource source).tokens.map (·.kind)

/-- All lexemes of the source decode. -/
def Source.Decodes (source : Source) : Prop := (TokenStream.ofSource source).stop = none

instance (source : Source) : Decidable source.Decodes :=
  inferInstanceAs (Decidable ((TokenStream.ofSource source).stop = none))

namespace Compiler

open State

variable {source : Source} {code : List Instruction}

theorem regular_ofSource (source : Source) : Regular { input := .ofSource source } where
  names _ ht hk := (TokenStream.isName_of_mem ht hk).2.ne_keyword .thisKeyword rfl
  env := ⟨rfl, rfl⟩

theorem emits_ofSource_iff :
    (∃ s, Emits [.classDeclaration] { input := .ofSource source } code s) ↔ source.Decodes ∧
      ∃ k : ClassDeclaration, k.tokens = source.kinds ∧ k.Scoped ∧ k.code = code := by
  have hregular := regular_ofSource source
  have htokens : ∀ k : ClassDeclaration, k.tokens ≠ [] := fun k => by
    simp [ClassDeclaration.tokens]
  simp only [emits_iff_meanings hregular, meanings_singleton,
    meaning_classDeclaration_iff hregular.names rfl rfl, takes_all_iff (htokens _)]
  constructor
  · rintro ⟨k, ⟨hstop, hk⟩, hscoped, rfl⟩
    exact ⟨hstop, k, hk, hscoped, rfl⟩
  · rintro ⟨hstop, k, hk, hscoped, rfl⟩
    exact ⟨k, ⟨hstop, hk⟩, hscoped, rfl⟩

/-- What compiles is a class that keeps the rules, and its code is that of its tree. -/
theorem exists_tree_of_compileClass (h : compileClass source = .ok code) :
    source.Decodes ∧ ∃ k : ClassDeclaration, k.tokens = source.kinds ∧ k.Scoped ∧ k.code = code :=
  emits_ofSource_iff.1 (compileClass_eq_ok.1 h).2

/-- A class that keeps the rules compiles. -/
theorem compileClass_of_tree {k : ClassDeclaration} (hd : source.Decodes)
    (hk : k.tokens = source.kinds) (hs : k.Scoped) : compileClass source = .ok k.code := by
  refine compileClass_eq_ok.2 ⟨?_, emits_ofSource_iff.2 ⟨hd, k, hk, hs, rfl⟩⟩
  rintro ⟨-, hstop⟩
  rw [show (TokenStream.ofSource source).stop = none from hd] at hstop
  simp at hstop

end Compiler

end Jack

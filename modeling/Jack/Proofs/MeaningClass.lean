import Jack.Proofs.MeaningStatement

/-!
# The steps of declarations

A step at a declaration, a subroutine or the class leaves goals that mean the same. A list of
declarations may be cut anywhere (`declares_append`): what was declared before is in the scope then.
-/

namespace Jack

open Syntax
open Token (Kind)

theorem Environment.declareAll_append {env : Environment} {first rest : List Declared} :
    env.declareAll (first ++ rest) = (env.declareAll first).bind (·.declareAll rest) := by
  induction first generalizing env with
  | nil => rfl
  | cons d first ih =>
    simp only [List.cons_append, declareAll]
    split
    · rfl
    · exact ih

namespace Compiler

open State

variable {s s' : State} {c : List Instruction}

namespace State

variable {k : Kind} {kinds kinds' : List Kind} {ds ds' : List Declared}

theorem declares_append : s.Declares (kinds ++ kinds') (ds ++ ds') s' ↔
    ∃ s₁, s.Declares kinds ds s₁ ∧ s₁.Declares kinds' ds' s' := by
  simp only [Declares, takes_append, Environment.declareAll_append, Option.bind_eq_some_iff]
  constructor
  · rintro ⟨s₂, env₂, ⟨s₁, h₁, h₂⟩, ⟨env₁, hd₁, hd₂⟩, rfl⟩
    exact ⟨_, ⟨s₁, env₁, h₁, hd₁, rfl⟩, _, env₂, takes_withEnv.2 ⟨s₂, h₂, rfl⟩, hd₂, rfl⟩
  · rintro ⟨_, ⟨s₁, env₁, h₁, hd₁, rfl⟩, _, env₂, h₂, hd₂, rfl⟩
    obtain ⟨s₂, h₃, rfl⟩ := takes_withEnv.1 h₂
    exact ⟨s₂, env₂, ⟨s₁, h₁, h₃⟩, ⟨env₁, hd₁, hd₂⟩, rfl⟩

theorem declares_tokens : s.Declares kinds [] s' ↔ s.Takes kinds s' := by
  simp only [Declares, Environment.declareAll, Option.some.injEq]
  constructor
  · rintro ⟨s₁, _, h, rfl, rfl⟩
    rwa [← h.env_eq]
  · intro h
    exact ⟨s', _, h, rfl, by rw [← h.env_eq]⟩

theorem declares_cons : s.Declares (k :: kinds) ds s' ↔
    ∃ s₁, s.Takes [k] s₁ ∧ s₁.Declares kinds ds s' := by
  have h := @declares_append s s' [k] kinds [] ds
  simpa only [declares_tokens, List.singleton_append, List.nil_append] using h

theorem declares_snoc : s.Declares (kinds ++ [k]) ds s' ↔
    ∃ s₁, s.Declares kinds ds s₁ ∧ s₁.Takes [k] s' := by
  have h := @declares_append s s' kinds [k] ds []
  simpa only [declares_tokens, List.append_nil] using h

theorem declares_nil : s.Declares [] [] s' ↔ s' = s := declares_tokens

theorem declare_eq_ok {name typeName : String} {kind : Symbol.Kind} {span : Span} :
    s.declare name typeName kind span = .ok s' ↔ s.Declares [] [⟨name, typeName, kind⟩] s' := by
  simp only [declare, Declares, takes_nil, Environment.declareAll]
  split
  · simp
  · simp [eq_comm]

/-- A name and what it declares, in front of more. -/
theorem declares_name (expected : String) {name typeName : String} {kind : Symbol.Kind} :
    s.Declares (.identifier name :: kinds) (⟨name, typeName, kind⟩ :: ds) s' ↔
      ∃ span s₁ s₂, s.requireName expected = .ok (name, span, s₁) ∧
        s₁.declare name typeName kind span = .ok s₂ ∧ s₂.Declares kinds ds s' := by
  rw [declares_cons]
  simp only [declare_eq_ok]
  constructor
  · rintro ⟨s₁, hk, hd⟩
    obtain ⟨span, hn⟩ := requireName_eq_ok.2 hk
    obtain ⟨s₂, h₁, h₂⟩ := (@declares_append s₁ s' [] kinds [_] ds).1 hd
    exact ⟨span, s₁, s₂, hn, h₁, h₂⟩
  · rintro ⟨span, s₁, s₂, hn, h₁, h₂⟩
    exact ⟨s₁, requireName_eq_ok.1 ⟨span, hn⟩,
      (@declares_append s₁ s' [] kinds [_] ds).2 ⟨s₂, h₁, h₂⟩⟩

theorem isExactly_bind_eq_none {kind : Kind} {k : Option Kind} :
    k.bind (isExactly kind) = none ↔ k ≠ some kind := by
  rcases k with _ | k <;> simp [isExactly]

end State

/-! ## Variables -/

theorem unfolds_variableName {kind : Symbol.Kind} {typeName : String} :
    Unfolds (.variableName kind typeName) s c s' ↔
      Meaning (.variableName kind typeName) s c s' := by
  simp only [Unfolds, step, bind_eq_ok, Prod.exists, pure, Except.pure, Except.ok.injEq,
    Prod.mk.injEq, Meaning, List.map_cons, declares_name "a variable name"]
  constructor
  · rintro ⟨_, _, ⟨name, span, s₁, hn, s₂, hd, rfl, rfl⟩, hm⟩
    obtain ⟨others, ho, rfl, hne⟩ := meanings_singleton.1 hm
    exact ⟨name, others, ⟨span, s₁, s₂, hn, hd, ho⟩, rfl, hne⟩
  · rintro ⟨name, others, ⟨span, s₁, s₂, hn, hd, ho⟩, rfl, hne⟩
    exact ⟨_, _, ⟨name, span, s₁, hn, s₂, hd, rfl, rfl⟩,
      meanings_singleton.2 ⟨others, ho, rfl, hne⟩⟩

theorem unfolds_moreVariables {kind : Symbol.Kind} {typeName : String} :
    Unfolds (.moreVariables kind typeName) s c s' ↔
      Meaning (.moreVariables kind typeName) s c s' := by
  refine (unfolds_accept (isExactly (.symbol ',')) [] (fun _ => [.variableName kind typeName])
    ?_).trans ?_
  · simp only [step]
    rcases s.accept? (isExactly (.symbol ',')) with _ | _ | _ <;> rfl
  simp only [isExactly_bind_eq_none, isExactly_eq_some, meanings_nil]
  constructor
  · rintro (⟨hn, rfl, rfl⟩ | ⟨_, _, s₁, rfl, hk, hm⟩)
    · exact ⟨[], declares_nil.2 rfl, rfl, hn⟩
    · obtain ⟨first, others, hd, rfl, hn⟩ := meanings_singleton.1 hm
      exact ⟨first :: others, declares_cons.2 ⟨s₁, hk, hd⟩, rfl, hn⟩
  · rintro ⟨names, hd, rfl, hn⟩
    cases names with
    | nil =>
      obtain rfl := declares_nil.1 hd
      exact .inl ⟨hn, rfl, rfl⟩
    | cons first others =>
      obtain ⟨s₁, hk, hd⟩ := declares_cons.1 hd
      exact .inr ⟨_, (), s₁, rfl, hk, meanings_singleton.2 ⟨first, others, hd, rfl, hn⟩⟩

theorem unfolds_variableType {kind : Symbol.Kind} :
    Unfolds (.variableType kind) s c s' ↔ Meaning (.variableType kind) s c s' := by
  simp only [Unfolds, step, bind_eq_ok, Prod.exists, pure, Except.pure, Except.ok.injEq,
    Prod.mk.injEq, requireType_eq_ok]
  constructor
  · rintro ⟨_, _, ⟨_, s₁, ⟨type, rfl, hk⟩, rfl, rfl⟩, hm⟩
    obtain ⟨first, others, hd, rfl, hn⟩ := meanings_singleton.1 hm
    exact ⟨⟨type, first, others⟩, declares_cons.2 ⟨s₁, hk, hd⟩, rfl, hn⟩
  · rintro ⟨⟨type, first, others⟩, hd, rfl, hn⟩
    obtain ⟨s₁, hk, hd⟩ := declares_cons.1 hd
    exact ⟨_, s₁, ⟨_, s₁, ⟨type, rfl, hk⟩, rfl, rfl⟩,
      meanings_singleton.2 ⟨first, others, hd, rfl, hn⟩⟩

/-- A declaration behind its keyword. -/
theorem meanings_variables {kind : Symbol.Kind} {goals : List Goal} :
    Meanings (.variableType kind :: .symbol ';' :: goals) s c s' ↔
      ∃ (v : Variables) (s₁ : State),
        s.Declares v.tokens (v.declared kind) s₁ ∧ Meanings goals s₁ c s' := by
  constructor
  · rintro ⟨_, s₁, _, ⟨v, hd, rfl, -⟩, hm, rfl⟩
    obtain ⟨s₂, hk, hm₁⟩ := meanings_symbol.1 hm
    exact ⟨v, s₂, declares_snoc.2 ⟨s₁, hd, hk⟩, hm₁⟩
  · rintro ⟨v, s₂, hd, hm⟩
    obtain ⟨s₁, hd, hk⟩ := declares_snoc.1 hd
    exact .cons (g := .variableType kind) ⟨v, hd, rfl, by rw [hk.next?_eq]; simp⟩ (.symbol hk hm)

theorem unfolds_localVariables :
    Unfolds .localVariables s c s' ↔ Meaning .localVariables s c s' := by
  refine (unfolds_accept (isExactly (.keyword .varKeyword)) []
    (fun _ => [.variableType .localVar, .symbol ';', .localVariables]) ?_).trans ?_
  · simp only [step]
    rcases s.accept? (isExactly (.keyword .varKeyword)) with _ | _ | _ <;> rfl
  simp only [isExactly_bind_eq_none, isExactly_eq_some, meanings_nil, meanings_variables,
    meanings_singleton]
  constructor
  · rintro (⟨hn, rfl, rfl⟩ | ⟨_, _, s₁, rfl, hk, v, s₂, hd, vs, hds, rfl, hn⟩)
    · exact ⟨[], declares_nil.2 rfl, rfl, hn⟩
    · exact ⟨v :: vs, declares_append.2 ⟨s₂, declares_cons.2 ⟨s₁, hk, hd⟩, hds⟩, rfl, hn⟩
  · rintro ⟨vs, hds, rfl, hn⟩
    cases vs with
    | nil =>
      obtain rfl := declares_nil.1 hds
      exact .inl ⟨hn, rfl, rfl⟩
    | cons v vs =>
      obtain ⟨s₂, hd, hds⟩ := declares_append.1 hds
      obtain ⟨s₁, hk, hd⟩ := declares_cons.1 hd
      exact .inr ⟨_, (), s₁, rfl, hk, v, s₂, hd, vs, hds, rfl, hn⟩

theorem classVariableKind?_eq_some {k : Kind} {kind : Symbol.Kind} :
    classVariableKind? k = some kind ↔
      ∃ o : Ownership, o.kind = kind ∧ k = .keyword o.keyword := by
  constructor
  · intro h
    unfold classVariableKind? at h
    split at h <;> simp only [Option.some.injEq, reduceCtorEq] at h
    · exact ⟨.ofClass, h, rfl⟩
    · exact ⟨.ofObject, h, rfl⟩
  · rintro ⟨o, rfl, rfl⟩
    cases o <;> rfl

theorem unfolds_classVariables :
    Unfolds .classVariables s c s' ↔ Meaning .classVariables s c s' := by
  refine (unfolds_accept classVariableKind? []
    (fun kind => [.variableType kind, .symbol ';', .classVariables]) ?_).trans ?_
  · simp only [step]
    rcases s.accept? classVariableKind? with _ | _ | _ <;> rfl
  simp only [meanings_nil, meanings_variables, meanings_singleton, classVariableKind?_eq_some]
  constructor
  · rintro (⟨hn, rfl, rfl⟩ | ⟨_, _, s₁, ⟨o, rfl, rfl⟩, hk, v, s₂, hd, vs, hds, rfl, hn⟩)
    · exact ⟨[], declares_nil.2 rfl, rfl, hn⟩
    · exact ⟨⟨o, v⟩ :: vs, declares_append.2 ⟨s₂, declares_cons.2 ⟨s₁, hk, hd⟩, hds⟩, rfl, hn⟩
  · rintro ⟨vs, hds, rfl, hn⟩
    cases vs with
    | nil =>
      obtain rfl := declares_nil.1 hds
      exact .inl ⟨hn, rfl, rfl⟩
    | cons v vs =>
      obtain ⟨s₂, hd, hds⟩ := declares_append.1 hds
      obtain ⟨s₁, hk, hd⟩ := declares_cons.1 hd
      exact .inr ⟨_, _, s₁, ⟨v.ownership, rfl, rfl⟩, hk, v.declaration, s₂, hd, vs, hds, rfl, hn⟩

/-! ## Subroutines -/

theorem unfolds_moreParameters :
    Unfolds .moreParameters s c s' ↔ Meaning .moreParameters s c s' := by
  refine (unfolds_accept (isExactly (.symbol ',')) [] (fun _ => [.parameter]) ?_).trans ?_
  · simp only [step]
    rcases s.accept? (isExactly (.symbol ',')) with _ | _ | _ <;> rfl
  simp only [isExactly_bind_eq_none, isExactly_eq_some, meanings_nil]
  constructor
  · rintro (⟨hn, rfl, rfl⟩ | ⟨_, _, s₁, rfl, hk, hm⟩)
    · exact ⟨[], declares_nil.2 rfl, rfl, hn⟩
    · obtain ⟨p, ps, hd, rfl, hn⟩ := meanings_singleton.1 hm
      exact ⟨p :: ps, declares_cons.2 ⟨s₁, hk, hd⟩, rfl, hn⟩
  · rintro ⟨ps, hd, rfl, hn⟩
    cases ps with
    | nil =>
      obtain rfl := declares_nil.1 hd
      exact .inl ⟨hn, rfl, rfl⟩
    | cons p ps =>
      obtain ⟨s₁, hk, hd⟩ := declares_cons.1 hd
      exact .inr ⟨_, (), s₁, rfl, hk, meanings_singleton.2 ⟨p, ps, hd, rfl, hn⟩⟩

theorem unfolds_parameterName {typeName : String} :
    Unfolds (.parameterName typeName) s c s' ↔ Meaning (.parameterName typeName) s c s' := by
  simp only [Unfolds, step, bind_eq_ok, Prod.exists, pure, Except.pure, Except.ok.injEq,
    Prod.mk.injEq, Meaning, declares_name "a parameter name"]
  constructor
  · rintro ⟨_, _, ⟨name, span, s₁, hn, s₂, hd, rfl, rfl⟩, hm⟩
    obtain ⟨ps, hps, rfl, hne⟩ := meanings_singleton.1 hm
    exact ⟨name, ps, ⟨span, s₁, s₂, hn, hd, hps⟩, rfl, hne⟩
  · rintro ⟨name, ps, ⟨span, s₁, s₂, hn, hd, hps⟩, rfl, hne⟩
    exact ⟨_, _, ⟨name, span, s₁, hn, s₂, hd, rfl, rfl⟩,
      meanings_singleton.2 ⟨ps, hps, rfl, hne⟩⟩

theorem unfolds_parameter : Unfolds .parameter s c s' ↔ Meaning .parameter s c s' := by
  simp only [Unfolds, step, bind_eq_ok, Prod.exists, pure, Except.pure, Except.ok.injEq,
    Prod.mk.injEq, requireType_eq_ok]
  constructor
  · rintro ⟨_, _, ⟨_, s₁, ⟨type, rfl, hk⟩, rfl, rfl⟩, hm⟩
    obtain ⟨name, ps, hd, rfl, hn⟩ := meanings_singleton.1 hm
    exact ⟨⟨type, name⟩, ps, declares_cons.2 ⟨s₁, hk, hd⟩, rfl, hn⟩
  · rintro ⟨⟨type, name⟩, ps, hd, rfl, hn⟩
    obtain ⟨s₁, hk, hd⟩ := declares_cons.1 hd
    exact ⟨_, s₁, ⟨_, s₁, ⟨type, rfl, hk⟩, rfl, rfl⟩,
      meanings_singleton.2 ⟨name, ps, hd, rfl, hn⟩⟩

theorem token_ne_symbol (type : VariableType) (ch : Char) : type.token ≠ .symbol ch := by
  cases type <;> simp [VariableType.token]

theorem unfolds_parameters : Unfolds .parameters s c s' ↔ Meaning .parameters s c s' := by
  by_cases hn : s.next? = some (.symbol ')')
  · rw [unfolds_of_eq (show step s .parameters = .ok ([], s) by
      simp [step, at?_eq_true, hn, pure, Except.pure]), meanings_nil]
    constructor
    · rintro ⟨rfl, rfl⟩
      exact ⟨[], declares_nil.2 rfl, rfl, fun _ => hn, by simp [hn]⟩
    · rintro ⟨ps, hd, rfl, -, -⟩
      cases ps with
      | nil => exact ⟨rfl, declares_nil.1 hd⟩
      | cons p ps =>
        obtain ⟨s₁, hk, -⟩ := declares_cons.1 hd
        exact absurd (Option.some.inj (hk.next?_eq.symm.trans hn)) (token_ne_symbol p.type ')')
  · rw [unfolds_of_eq (show step s .parameters = .ok ([.parameter], s) by
      simp [step, at?_eq_true, hn, pure, Except.pure]), meanings_singleton]
    constructor
    · rintro ⟨p, ps, hd, rfl, hne⟩
      exact ⟨p :: ps, hd, rfl, by simp, hne⟩
    · rintro ⟨ps, hd, rfl, hp, hne⟩
      cases ps with
      | nil => exact absurd (hp rfl) hn
      | cons p ps => exact ⟨p, ps, hd, rfl, hne⟩

theorem unfolds_returnType : Unfolds .returnType s c s' ↔ Meaning .returnType s c s' := by
  simp only [Unfolds, step, bind_eq_ok]
  constructor
  · rintro ⟨goals, s₁, ⟨_ | ⟨_, s₂⟩, ha, hg⟩, hm⟩
    · simp only [bind_eq_ok, Prod.exists, requireType_eq_ok, pure, Except.pure, Except.ok.injEq,
        Prod.mk.injEq] at hg
      obtain ⟨_, s₂, ⟨type, rfl, hk⟩, rfl, rfl⟩ := hg
      obtain ⟨rfl, rfl⟩ := meanings_nil.1 hm
      exact ⟨some type, hk, rfl⟩
    · simp only [pure, Except.pure, Except.ok.injEq, Prod.mk.injEq] at hg
      obtain ⟨rfl, rfl⟩ := hg
      obtain ⟨rfl, rfl⟩ := meanings_nil.1 hm
      obtain ⟨k, hk, ht⟩ := accept?_eq_some.1 ha
      rw [isExactly_eq_some.1 hk] at ht
      exact ⟨none, ht, rfl⟩
  · rintro ⟨_ | type, hk, rfl⟩
    · exact ⟨[], s', ⟨some ((), s'), accept?_eq_some.2 ⟨_, isExactly_eq_some.2 rfl, hk⟩, rfl⟩,
        rfl, rfl⟩
    · refine ⟨[], s', ⟨none, accept?_eq_none.2 ?_, ?_⟩, rfl, rfl⟩
      · rw [hk.next?_eq]
        cases type <;> rfl
      · simp only [bind_eq_ok, Prod.exists, requireType_eq_ok]
        exact ⟨_, s', ⟨type, rfl, hk⟩, rfl⟩

theorem unfolds_subroutineName {kind : Subroutine.Kind} :
    Unfolds (.subroutineName kind) s c s' ↔ Meaning (.subroutineName kind) s c s' := by
  simp only [Unfolds, step, bind_eq_ok, Prod.exists, pure, Except.pure, Except.ok.injEq,
    Prod.mk.injEq]
  constructor
  · rintro ⟨_, _, ⟨name, span, s₁, hn, rfl, rfl⟩, hm⟩
    have hk := requireName_eq_ok.1 ⟨span, hn⟩
    obtain ⟨rfl, rfl⟩ := meanings_singleton.1 hm
    exact ⟨name, s₁, hk, by rw [hk.env_eq], rfl⟩
  · rintro ⟨name, s₁, hk, rfl, rfl⟩
    obtain ⟨span, hn⟩ := requireName_eq_ok.2 hk
    exact ⟨_, _, ⟨name, span, s₁, hn, rfl, rfl⟩,
      meanings_singleton.2 ⟨rfl, by rw [hk.env_eq]⟩⟩

theorem unfolds_prologue {kind : Subroutine.Kind} :
    Unfolds (.prologue kind) s c s' ↔ Meaning (.prologue kind) s c s' :=
  (unfolds_of_eq (show step s (.prologue kind) = .ok ([.emit (prologueCode s.env kind)], s) from
    rfl)).trans meanings_singleton

theorem subroutineKind?_eq_some {k : Kind} {kind : Subroutine.Kind} :
    subroutineKind? k = some kind ↔ k = kindToken kind := by
  constructor
  · intro h
    unfold subroutineKind? Subroutine.Kind.ofKeyword? at h
    split at h
    · split at h <;> simp only [Option.some.injEq, reduceCtorEq] at h <;> subst h <;> rfl
    · simp at h
  · rintro rfl
    cases kind <;> rfl

/-- The end of the declarations of a subroutine. -/
theorem next?_ne_var {body : Block} {ms qs : List String} {i w : Nat}
    (h : s.Passes (body.tokens ++ [.symbol '}']) ms qs i w s') :
    s.next? ≠ some (.keyword .varKeyword) := by
  obtain ⟨s₁, hr, -⟩ := h
  cases body with
  | nil => rw [hr.1.next?_eq]; simp
  | cons st body =>
    obtain ⟨kind, kinds, hst⟩ := exists_statement_tokens st
    have ht := hr.1
    rw [Block.tokens, hst] at ht
    rw [ht.next?_eq]
    cases kind <;> simp [StatementKind.keyword]

/-- A subroutine, and what follows it. -/
theorem meanings_subroutine (kind : Subroutine.Kind) (goals : List Goal) :
    (∃ s₀, s.Takes [kindToken kind] s₀ ∧ Meanings (.returnType :: .subroutineName kind ::
      .symbol '(' :: .parameters :: .symbol ')' :: .symbol '{' :: .localVariables ::
      .prologue kind :: .statements :: .symbol '}' :: goals) s₀ c s') ↔
      ∃ d c₁ s₁ c₂, d.kind = kind ∧ s.Enters d c₁ s₁ ∧ Meanings goals s₁ c₂ s' ∧ c = c₁ ++ c₂ := by
  constructor
  · rintro ⟨s₀, hk, _, s₁, _, ⟨r, hr, rfl⟩, ⟨_, _, _, ⟨name, s₂, hname, rfl, rfl⟩, hm₁, rfl⟩, rfl⟩
    obtain ⟨s₃, h₃, ⟨_, s₄, _, ⟨ps, hps, rfl, -, -⟩, hm₂, rfl⟩⟩ := meanings_symbol.1 hm₁
    obtain ⟨s₅, h₅, hm₃⟩ := meanings_symbol.1 hm₂
    obtain ⟨s₆, h₆, ⟨_, s₇, _, ⟨vs, hvs, rfl, -⟩, hm₄, rfl⟩⟩ := meanings_symbol.1 hm₃
    obtain ⟨_, _, _, ⟨rfl, rfl⟩, ⟨_, s₈, _, ⟨body, hb, rfl, -, -⟩, hm₅, rfl⟩, rfl⟩ := hm₄
    obtain ⟨s₉, h₉, hm₆⟩ := meanings_symbol.1 hm₅
    refine ⟨⟨kind, r, name, ps, vs, body⟩, _, s₉, _, rfl, ⟨s₂, _, ?_, ?_,
      passes_snoc.2 ⟨s₈, hb, h₉⟩, rfl⟩, hm₆, by simp⟩
    · exact takes_cons.2 ⟨s₀, hk, takes_cons.2 ⟨s₁, hr, hname⟩⟩
    · rw [hr.env_eq, hk.env_eq] at h₃
      exact declares_append.2 ⟨s₄, declares_cons.2 ⟨s₃, h₃, hps⟩,
        declares_cons.2 ⟨s₅, h₅, declares_cons.2 ⟨s₆, h₆, hvs⟩⟩⟩
  · rintro ⟨⟨kind, r, name, ps, vs, body⟩, _, s₉, c₂, rfl, ⟨s₂, s₇, h₂, h₇, h₉, rfl⟩, hm, rfl⟩
    obtain ⟨s₀, hk, h₂⟩ := takes_cons.1 h₂
    obtain ⟨s₁, hr, hname⟩ := takes_cons.1 h₂
    obtain ⟨s₄, h₄, h₇⟩ := declares_append.1 h₇
    obtain ⟨s₃, h₃, hps⟩ := declares_cons.1 h₄
    obtain ⟨s₅, h₅, h₇⟩ := declares_cons.1 h₇
    obtain ⟨s₆, h₆, hvs⟩ := declares_cons.1 h₇
    obtain ⟨s₈, hb, h₉⟩ := passes_snoc.1 h₉
    have hn₄ := h₅.next?_eq
    have hn₈ := h₉.next?_eq
    have hbody := Meanings.cons (g := .prologue kind) ⟨rfl, rfl⟩ (.cons (g := .statements)
      ⟨body, hb, rfl, by simp [Closes, hn₈], by rw [hn₈]; rfl⟩ (.symbol h₉ hm))
    have hlocals := Meanings.cons (g := .localVariables)
      ⟨vs, hvs, rfl, next?_ne_var (passes_snoc.2 ⟨s₈, hb, h₉⟩)⟩ hbody
    have hparameters := Meanings.cons (g := .parameters) ⟨ps, hps, rfl, ?_, by simp [hn₄]⟩
      (.symbol h₅ (.symbol h₆ hlocals))
    · rw [← hk.env_eq, ← hr.env_eq] at h₃
      refine ⟨s₀, hk, ?_⟩
      simpa using Meanings.cons (g := .returnType) ⟨r, hr, rfl⟩ (.cons (g := .subroutineName kind)
        ⟨name, s₂, hname, rfl, rfl⟩ (.symbol h₃ hparameters))
    · rintro rfl
      rwa [← declares_nil.1 hps]

theorem unfolds_subroutines : Unfolds .subroutines s c s' ↔ Meaning .subroutines s c s' := by
  refine (unfolds_accept subroutineKind? [] (fun kind => [.returnType, .subroutineName kind,
    .symbol '(', .parameters, .symbol ')', .symbol '{', .localVariables, .prologue kind,
    .statements, .symbol '}', .subroutines]) ?_).trans ?_
  · simp only [step]
    rcases s.accept? subroutineKind? with _ | _ | _ <;> rfl
  simp only [subroutineKind?_eq_some]
  constructor
  · rintro (⟨hn, rfl, rfl⟩ | ⟨_, kind, s₀, rfl, hk, hm⟩)
    · exact ⟨[], ⟨rfl, rfl⟩, hn⟩
    · obtain ⟨d, c₁, s₁, c₂, -, hd, hm₁, rfl⟩ := (meanings_subroutine kind [.subroutines]).1 ⟨s₀, hk, hm⟩
      obtain ⟨ds, hds, hn⟩ := meanings_singleton.1 hm₁
      exact ⟨d :: ds, ⟨c₁, s₁, c₂, hd, hds, rfl⟩, hn⟩
  · rintro ⟨ds, hds, hn⟩
    cases ds with
    | nil =>
      obtain ⟨rfl, rfl⟩ := hds
      exact .inl ⟨hn, rfl, rfl⟩
    | cons d ds =>
      obtain ⟨c₁, s₁, c₂, hd, hds, rfl⟩ := hds
      obtain ⟨s₀, hk, hm⟩ := (meanings_subroutine d.kind [.subroutines]).2
        ⟨d, c₁, s₁, c₂, rfl, hd, meanings_singleton.2 ⟨ds, hds, hn⟩, rfl⟩
      exact .inr ⟨_, d.kind, s₀, rfl, hk, hm⟩

/-! ## The class -/

theorem unfolds_endOfClass : Unfolds .endOfClass s c s' ↔ Meaning .endOfClass s c s' := by
  simp only [Unfolds, step, Meaning, next?]
  cases s.current? <;> simp [and_assoc]

/-- No subroutine and no declaration goes on with the closing brace. -/
theorem next?_of_entersAll {ds : List SubroutineDeclaration} (h : s.EntersAll ds c s')
    (hn : s'.next? = some (.symbol '}')) :
    s.next?.bind classVariableKind? = none := by
  cases ds with
  | nil =>
    obtain ⟨-, rfl⟩ := h
    rw [hn]
    rfl
  | cons d ds =>
    obtain ⟨c₁, s₁, c₂, ⟨s₂, s₃, ht, -⟩, -⟩ := h
    rw [ht.next?_eq]
    cases d.kind <;> rfl

theorem unfolds_className : Unfolds .className s c s' ↔ Meaning .className s c s' := by
  simp only [Unfolds, step, bind_eq_ok, Prod.exists, pure, Except.pure, Except.ok.injEq,
    Prod.mk.injEq]
  constructor
  · rintro ⟨_, _, ⟨name, span, s₁, hn, rfl, rfl⟩, hm⟩
    have hk := requireName_eq_ok.1 ⟨span, hn⟩
    obtain ⟨_, _, _, ⟨rfl, rfl⟩, hm₁, rfl⟩ := hm
    obtain ⟨s₂, h₂, ⟨_, s₃, _, ⟨vs, hvs, rfl, -⟩, ⟨c₁, s₄, _, ⟨ds, hds, -⟩, hm₂, rfl⟩, rfl⟩⟩ :=
      meanings_symbol.1 hm₁
    obtain ⟨s₅, h₅, hm₃⟩ := meanings_symbol.1 hm₂
    obtain ⟨hend, rfl, rfl⟩ := meanings_singleton.1 hm₃
    refine ⟨⟨name, vs, ds⟩, s₁, s₃, s₄, hk, ?_, by simpa using hds, h₅, hend⟩
    rw [hk.env_eq] at h₂
    exact declares_cons.2 ⟨s₂, h₂, hvs⟩
  · rintro ⟨⟨name, vs, ds⟩, s₁, s₃, s₄, hk, hd, hds, h₅, hend⟩
    obtain ⟨span, hn⟩ := requireName_eq_ok.2 hk
    obtain ⟨s₂, h₂, hvs⟩ := declares_cons.1 hd
    have hn₄ := h₅.next?_eq
    refine ⟨_, _, ⟨name, span, s₁, hn, rfl, rfl⟩, ?_⟩
    rw [← hk.env_eq] at h₂
    have hm := Meanings.cons (g := .subroutines) ⟨ds, hds, by rw [hn₄]; rfl⟩
      (.symbol h₅ (meanings_singleton (g := .endOfClass).2 ⟨hend, rfl, rfl⟩))
    simpa using Meanings.cons (g := .note (.beginClass name)) ⟨rfl, rfl⟩
      (.symbol h₂ (.cons (g := .classVariables)
        ⟨vs, hvs, rfl, next?_of_entersAll hds hn₄⟩ hm))

theorem unfolds_classDeclaration :
    Unfolds .classDeclaration s c s' ↔ Meaning .classDeclaration s c s' := by
  simp only [Unfolds, step, bind_eq_ok, requireKeyword_eq_ok, pure, Except.pure, Except.ok.injEq,
    Prod.mk.injEq]
  constructor
  · rintro ⟨_, _, ⟨s₁, hk, rfl, rfl⟩, hm⟩
    obtain ⟨k, h⟩ := meanings_singleton.1 hm
    exact ⟨k, s₁, hk, h⟩
  · rintro ⟨k, s₁, hk, h⟩
    exact ⟨_, _, ⟨s₁, hk, rfl, rfl⟩, meanings_singleton.2 ⟨k, h⟩⟩

end Compiler

end Jack

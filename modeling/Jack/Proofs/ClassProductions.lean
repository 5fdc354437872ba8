import Jack.Proofs.Productions

/-!
# Productions of classes

The steps of a symbol and of the goals that declare something, from a list of names to the class,
fit the grammar. A list goes on as long as the token at hand begins another item, so what may follow
it is any other token.
-/

namespace Jack.Compiler

open Syntax State Goal
open Token (Kind)

variable {s : State} {p r : List Kind}

attribute [local simp] Follow

theorem fits_symbol (c : Char) : Fits s (.symbol c) (step s (.symbol c)) := by
  refine fits_requireSymbol (fun hn => bars_of_begins ?_) fun s₁ hk => fits_taken hk rfl ?_
  · rintro _ rfl
    exact ⟨_, _, rfl, hn⟩
  · refine .behind (by simp [Phrase]) (by simp [Phrase]) (fun p r hp _ => ?_) (by simp)
    simpa [Phrase] using hp

/-! ## Declarations -/

theorem fits_moreVariables {kind : Symbol.Kind} {typeName : String} :
    Fits s (.moreVariables kind typeName) (step s (.moreVariables kind typeName)) := by
  have hnames : Repeats (.moreVariables kind typeName) (fun _ : String => .symbol ',')
      fun name => [.identifier name] := fun _ => Iff.rfl
  refine fits_acceptExactly (fun hn => fits_kept (hnames.ending fun _ => hn) rfl) fun s₁ ht =>
    fits_taken ht rfl (hnames.item (by simp) ?_ ?_ (by simp [Whole]))
  · simp only [phrases_singleton]
    rintro _ ⟨name, names, rfl⟩
    exact ⟨name, _, trivial, ⟨names, rfl⟩, rfl⟩
  · rintro name _ r - ⟨names, rfl⟩ hf
    exact .singleton ⟨name, names, rfl⟩ hf

theorem fits_declare {g : Goal} {name typeName : String} {kind : Symbol.Kind} {span : Span}
    {s₁ : State} {k : Kind} {goals : List Goal} (hk : s.Takes [k] s₁)
    (h : Expands g (some k) [k] goals) :
    Fits s g (s₁.declare name typeName kind span >>= fun s₂ => pure (goals, s₂)) := by
  refine fits_bind (fun e he => fits_error ?_) fun s₂ hd => fits_taken hk (by rw [eq_of_declare hd]) h
  simp only [declare] at he
  split at he <;> simp only [Except.error.injEq, reduceCtorEq] at he
  subst he
  simp [Error.category]

theorem fits_variableName {kind : Symbol.Kind} {typeName : String} :
    Fits s (.variableName kind typeName) (step s (.variableName kind typeName)) := by
  refine fits_requireName (fun hn => bars_of_begins ?_) fun name span s₁ hk =>
    fits_declare hk (.onward (by simp [Phrase]) (by simp [Phrase]) (fun _ => id) (by simp [Whole]))
  rintro _ ⟨name, names, rfl⟩
  exact ⟨_, _, rfl, hn name⟩

theorem fits_variableType {kind : Symbol.Kind} :
    Fits s (.variableType kind) (step s (.variableType kind)) := by
  refine fits_requireType (fun hn => bars_of_begins ?_) fun type s₁ hk =>
    fits_taken hk rfl (.onward (by simp [Phrase]) (fun p => ?_) (fun _ => id) (by simp [Whole]))
  · rintro _ ⟨type, name, names, rfl⟩
    exact ⟨_, _, rfl, hn type⟩
  · constructor
    · rintro ⟨_, name, names, hp⟩
      exact ⟨name, names, (List.cons.inj hp).2⟩
    · rintro ⟨name, names, rfl⟩
      exact ⟨type, name, names, rfl⟩

/-- A declaration behind its keyword, and what comes after it. -/
theorem phrases_variables {kind : Symbol.Kind} {goals : List Goal} :
    Phrases (.variableType kind :: .symbol ';' :: goals) p ↔
      ∃ (v : Variables) (q : List Kind), Phrases goals q ∧ p = v.tokens ++ q := by
  simp only [phrases_cons, Phrase]
  constructor
  · rintro ⟨_, _, ⟨type, name, names, rfl⟩, ⟨_, q, rfl, hq, rfl⟩, rfl⟩
    exact ⟨⟨type, name, names⟩, q, hq, by simp [Variables.tokens, moreNames]⟩
  · rintro ⟨⟨type, name, names⟩, q, hq, rfl⟩
    exact ⟨_, _, ⟨type, name, names, rfl⟩, ⟨_, q, rfl, hq, rfl⟩, by
      simp [Variables.tokens, moreNames]⟩

theorem parses_variables {kind : Symbol.Kind} {goals : List Goal} (v : Variables)
    (h : Parses goals p r) :
    Parses (.variableType kind :: .symbol ';' :: goals) (v.tokens ++ p) r := by
  have hv : Phrase (.variableType kind) (v.type.token :: .identifier v.first :: moreNames v.others) :=
    ⟨v.type, v.first, v.others, rfl⟩
  have hp := Parses.cons hv (by simp) (.symbol (c := ';') h)
  simpa [Variables.tokens, moreNames] using hp

theorem fits_localVariables : Fits s .localVariables (step s .localVariables) := by
  have hlocals : Repeats .localVariables (fun _ : Variables => .keyword .varKeyword)
      (·.tokens) := fun _ => Iff.rfl
  refine fits_acceptExactly (fun hn => fits_kept (hlocals.ending fun _ => hn) rfl) fun s₁ ht =>
    fits_taken ht rfl (hlocals.item (by simp) ?_ ?_ (by simp [Whole]))
  · simp only [phrases_variables, phrases_singleton]
    rintro _ ⟨v, q, hq, rfl⟩
    exact ⟨v, q, trivial, hq, rfl⟩
  · intro v q r _ hq hf
    exact parses_variables v (.singleton hq hf)

theorem fits_classVariables : Fits s .classVariables (step s .classVariables) := by
  have hdeclared : Repeats .classVariables (fun v : ClassVariables => .keyword v.ownership.keyword)
      (·.declaration.tokens) := fun _ => Iff.rfl
  refine fits_accept (fun hn => fits_kept (hdeclared.ending fun v hv => ?_) rfl)
    fun k kind s₁ hk ht =>
      fits_taken ht rfl (hdeclared.item (by simp [hk]) ?_ ?_ (by simp [Whole]))
  · rw [hv, Option.bind_some, classVariableKind?_eq_some.2 ⟨v.ownership, rfl, rfl⟩] at hn
    simp at hn
  · obtain ⟨o, -, rfl⟩ := classVariableKind?_eq_some.1 hk
    simp only [phrases_variables, phrases_singleton]
    rintro _ ⟨v, q, hq, rfl⟩
    exact ⟨⟨o, v⟩, q, rfl, hq, rfl⟩
  · intro v q r _ hq hf
    exact parses_variables v.declaration (.singleton hq hf)

/-! ## Parameters -/

theorem fits_moreParameters : Fits s .moreParameters (step s .moreParameters) := by
  have hparameters : Repeats .moreParameters (fun _ : Parameter => .symbol ',') (·.tokens) :=
    fun _ => Iff.rfl
  refine fits_acceptExactly (fun hn => fits_kept (hparameters.ending fun _ => hn) rfl) fun s₁ ht =>
    fits_taken ht rfl (hparameters.item (by simp) ?_ ?_ (by simp [Whole]))
  · simp only [phrases_singleton]
    rintro _ ⟨q, ps, rfl⟩
    exact ⟨q, _, trivial, ⟨ps, rfl⟩, rfl⟩
  · rintro q _ r - ⟨ps, rfl⟩ hf
    exact .singleton ⟨q, ps, rfl⟩ hf

theorem fits_parameterName {typeName : String} :
    Fits s (.parameterName typeName) (step s (.parameterName typeName)) := by
  refine fits_requireName (fun hn => bars_of_begins ?_) fun name span s₁ hk =>
    fits_declare hk (.onward (by simp [Phrase]) (by simp [Phrase]) (fun _ => id) (by simp [Whole]))
  rintro _ ⟨name, ps, rfl⟩
  exact ⟨_, _, rfl, hn name⟩

theorem fits_parameter : Fits s .parameter (step s .parameter) := by
  refine fits_requireType (fun hn => bars_of_begins ?_) fun type s₁ hk =>
    fits_taken hk rfl (.onward (by simp [Phrase, Parameter.tokens]) (fun p => ?_) (fun _ => id)
      (by simp [Whole]))
  · rintro _ ⟨q, ps, rfl⟩
    exact ⟨_, _, rfl, hn q.type⟩
  · constructor
    · rintro ⟨q, ps, hp⟩
      exact ⟨q.name, ps, (List.cons.inj hp).2⟩
    · rintro ⟨name, ps, rfl⟩
      exact ⟨⟨type, name⟩, ps, rfl⟩

theorem fits_parameters : Fits s .parameters (step s .parameters) := by
  simp only [step]
  split <;> rename_i hn <;> rw [at?_eq_true] at hn
  · refine fits_kept (.ending ⟨[], rfl⟩ ?_) rfl
    rintro k p hk ⟨_ | ⟨q, ps⟩, hp⟩
    · simp [parameterTokens] at hp
    · simp only [parameterTokens, Parameter.tokens, List.cons_append, List.cons.injEq] at hp
      rw [hk, hp.1, Option.some.injEq] at hn
      exact token_ne_symbol _ _ hn
  · refine fits_kept ⟨?_, ?_, by simp [Whole]⟩ rfl
    · simp only [phrases_singleton]
      rintro _ ⟨q, ps, rfl⟩
      exact ⟨q :: ps, rfl⟩
    · rintro p r ⟨_ | ⟨q, ps⟩, rfl⟩ hf hr
      · exact absurd (hr.symm.trans hf) hn
      · refine ⟨_, rfl, .singleton ⟨q, ps, rfl⟩ ?_⟩
        simp only [Follow] at hf ⊢
        simp [hf]

/-! ## Subroutines -/

theorem fits_returnType : Fits s .returnType (step s .returnType) := by
  refine fits_acceptExactly (fun hn => ?_) fun s₁ ht =>
    fits_taken ht rfl (.behind (by simp [Phrase]) ?_ ?_ (by simp))
  · refine fits_requireType (fun hn' => bars_of_begins ?_) fun type s₁ ht =>
      fits_taken ht rfl (.behind (by simp [Phrase]) ?_ ?_ (by simp))
    · rintro _ ⟨_ | type, rfl⟩
      · exact ⟨_, _, rfl, hn⟩
      · exact ⟨_, _, rfl, hn' type⟩
    · rintro _ rfl
      exact ⟨some type, rfl⟩
    · rintro p r ⟨_, hp⟩ -
      exact (List.cons.inj hp).2
  · rintro _ rfl
    exact ⟨none, rfl⟩
  · rintro p r ⟨_, hp⟩ -
    exact (List.cons.inj hp).2

theorem fits_subroutineName {kind : Subroutine.Kind} :
    Fits s (.subroutineName kind) (step s (.subroutineName kind)) := by
  refine fits_requireName (fun hn => bars_of_begins ?_) fun name span s₁ hk =>
    fits_taken hk rfl (.behind (by simp [Phrase]) ?_ ?_ (by simp [Whole]))
  · rintro _ ⟨name, rfl⟩
    exact ⟨_, _, rfl, hn name⟩
  · simp only [phrases_singleton]
    rintro _ rfl
    exact ⟨name, rfl⟩
  · rintro p r ⟨_, hp⟩ -
    exact .singleton (List.cons.inj hp).2 trivial

theorem next_ne_var (body : Block) (rest : List Kind) :
    (body.tokens ++ .symbol '}' :: rest).head? ≠ some (.keyword .varKeyword) := by
  cases body with
  | nil => simp [Block.tokens]
  | cons st body =>
    obtain ⟨kind, kinds, hst⟩ := exists_statement_tokens st
    rw [Block.tokens, hst]
    cases kind <;> simp [StatementKind.keyword]

theorem fits_subroutines : Fits s .subroutines (step s .subroutines) := by
  have hsubroutines : Repeats .subroutines (fun d : SubroutineDeclaration => kindToken d.kind)
      (·.tokens.tail) := fun _ => Iff.rfl
  refine fits_accept (fun hn => fits_kept (hsubroutines.ending fun d hd => ?_) rfl)
    fun k kind s₁ hk ht =>
      fits_taken ht rfl (hsubroutines.item (by simp [hk]) ?_ ?_ (by simp [Whole]))
  · rw [hd, Option.bind_some, subroutineKind?_eq_some.2 rfl] at hn
    simp at hn
  · obtain rfl := subroutineKind?_eq_some.1 hk
    simp only [phrases_cons, Phrase]
    rintro _ ⟨_, _, ⟨type, rfl⟩, ⟨_, _, ⟨name, rfl⟩, ⟨_, _, rfl, ⟨_, _, ⟨ps, rfl⟩, ⟨_, _, rfl,
      ⟨_, _, rfl, ⟨_, _, ⟨vs, rfl⟩, ⟨_, _, rfl, ⟨_, _, ⟨body, rfl⟩, ⟨_, _, rfl,
      ⟨_, _, ⟨ds, rfl⟩, rfl, rfl⟩, rfl⟩, rfl⟩, rfl⟩, rfl⟩, rfl⟩, rfl⟩, rfl⟩, rfl⟩, rfl⟩, rfl⟩
    exact ⟨⟨kind, type, name, ps, vs, body⟩, _, rfl, ⟨ds, rfl⟩, by
      simp [SubroutineDeclaration.tokens]⟩
  · intro d q r _ hq hf
    simp only [SubroutineDeclaration.tokens, List.cons_append, List.append_assoc, List.nil_append,
      List.tail_cons]
    refine .cons (p := [_]) ⟨d.returnType, rfl⟩ trivial <| .cons (p := [_]) ⟨d.name, rfl⟩ trivial <|
      .symbol <| .cons ⟨d.parameters, rfl⟩ (by simp) <| .symbol <| .symbol <|
      .cons ⟨d.locals, rfl⟩ ?_ <| .cons (p := []) rfl trivial <|
      .cons ⟨d.body, rfl⟩ (by simp) <| .symbol <| .singleton hq hf
    simpa using next_ne_var d.body (q ++ r)

/-! ## Classes -/

theorem head_subroutines (ds : List SubroutineDeclaration) (rest : List Kind) :
    (ds.flatMap SubroutineDeclaration.tokens ++ .symbol '}' :: rest).head?.bind
      classVariableKind? = none := by
  cases ds with
  | nil => simp [classVariableKind?]
  | cons d ds =>
    rw [List.flatMap_cons, SubroutineDeclaration.tokens]
    cases d.kind <;> simp [classVariableKind?, kindToken]

theorem fits_className : Fits s .className (step s .className) := by
  refine fits_requireName (fun hn => bars_of_begins ?_) fun name span s₁ hk =>
    fits_taken hk rfl (.behind (by simp [Phrase, ClassDeclaration.tokens]) ?_ ?_ (by simp [Whole]))
  · rintro p ⟨k, hp⟩
    simp only [ClassDeclaration.tokens, List.cons_append, List.cons.injEq, true_and] at hp
    exact ⟨_, _, hp.symm, hn k.name⟩
  · simp only [phrases_cons, Phrase]
    rintro _ ⟨_, _, rfl, ⟨_, _, rfl, ⟨_, _, ⟨vs, rfl⟩, ⟨_, _, ⟨ds, rfl⟩, ⟨_, _, rfl,
      ⟨_, _, rfl, rfl, rfl⟩, rfl⟩, rfl⟩, rfl⟩, rfl⟩, rfl⟩
    exact ⟨⟨name, vs, ds⟩, by simp [ClassDeclaration.tokens]⟩
  · rintro p r ⟨k, hp⟩ hf
    simp only [ClassDeclaration.tokens, List.cons_append, List.append_assoc, List.cons.injEq,
      true_and] at hp
    rw [← hp.2]
    refine .cons (p := []) rfl trivial <| .symbol <| .cons ⟨k.declarations, rfl⟩ ?_ <|
      .cons ⟨k.subroutines, rfl⟩ (by simp [subroutineKind?]) <| .symbol <|
      .singleton rfl hf
    have hnext := head_subroutines k.subroutines r
    simpa using hnext

theorem fits_classDeclaration : Fits s .classDeclaration (step s .classDeclaration) := by
  refine fits_requireKeyword (fun hn => bars_of_begins ?_) fun s₁ hk =>
    fits_taken hk rfl (.onward (by simp [Phrase, ClassDeclaration.tokens]) (by simp [Phrase, eq_comm])
      (fun _ => id) (by simp [Whole]))
  rintro _ ⟨k, rfl⟩
  exact ⟨_, _, rfl, hn⟩

theorem fits_endOfClass : Fits s .endOfClass (step s .endOfClass) := by
  simp only [step]
  split <;> rename_i hc
  · exact fits_kept (.ending rfl (by simp [next?, hc])) rfl
  · refine fun _ => ⟨?_, by simp [Error.span?, hc], fun _ _ _ _ => rfl⟩
    rintro _ r rfl hf
    simp_all [next?]

theorem fits_prologue (kind : Subroutine.Kind) : Fits s (.prologue kind) (step s (.prologue kind)) :=
  fits_kept ⟨by simp [Phrase], fun _ _ hp _ _ => ⟨_, rfl, .emit hp⟩, by simp [Whole]⟩ rfl

end Jack.Compiler

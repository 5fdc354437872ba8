import Jack.Proofs.ClassProductions
import Jack.Proofs.Reference
import Jack.Proofs.Spans
import Jack.Proofs.StatementProductions

/-!
# Syntax errors come at the first wrong token

An agenda is led on by the tokens that are taken (`Led`): whatever the agenda that is left stands
for completes these tokens to what the whole agenda stands for, and nothing else does that goes on
with the token at hand. So where a step fails for the syntax, the tokens before can be completed to
a class and those up to the one at hand cannot (`grounded_of_compile`).
-/

namespace Jack

open Token (Kind)

namespace Compiler

open Syntax State

variable {g : Goal} {goals agenda agenda' agenda₁ : List Goal} {s s₁ s' : State}
  {ts ts' : List Token} {e : Error}

theorem fits_step (s : State) (g : Goal) : Fits s g (step s g) := by
  cases g with
  | emit | note => exact fits_kept (.ending rfl (by simp [Phrase])) rfl
  | symbol c => exact fits_symbol c
  | classDeclaration => exact fits_classDeclaration
  | className => exact fits_className
  | classVariables => exact fits_classVariables
  | subroutines => exact fits_subroutines
  | returnType => exact fits_returnType
  | subroutineName => exact fits_subroutineName
  | parameters => exact fits_parameters
  | parameter => exact fits_parameter
  | parameterName => exact fits_parameterName
  | moreParameters => exact fits_moreParameters
  | localVariables => exact fits_localVariables
  | variableType => exact fits_variableType
  | variableName => exact fits_variableName
  | moreVariables => exact fits_moreVariables
  | prologue kind => exact fits_prologue kind
  | statements => exact fits_statements
  | letTarget => exact fits_letTarget
  | assignment => exact fits_assignment
  | elseBranch => exact fits_elseBranch
  | doCall => exact fits_doCall
  | returnValue => exact fits_returnValue
  | expression => exact fits_expression
  | operators => exact fits_operators
  | term => exact fits_term
  | named => exact fits_named
  | call => exact fits_call
  | qualifiedCall => exact fits_qualifiedCall
  | arguments => exact fits_arguments
  | argumentList => exact fits_argumentList
  | moreArguments => exact fits_moreArguments
  | endOfClass => exact fits_endOfClass

/-! ## Completing -/

/-- A short phrase of the goal. -/
def filler : Goal → List Kind
  | .symbol c => [.symbol c]
  | .classDeclaration => [.keyword .classKeyword, .identifier "x", .symbol '\x7b', .symbol '\x7d']
  | .className => [.identifier "x", .symbol '\x7b', .symbol '\x7d']
  | .returnType => [.keyword .voidKeyword]
  | .subroutineName _ | .parameterName _ | .variableName .. => [.identifier "x"]
  | .parameter | .variableType _ => [.keyword .intKeyword, .identifier "x"]
  | .letTarget =>
    [.identifier "x", .symbol '=', .keyword .nullKeyword, .symbol ';']
  | .assignment _ => [.symbol '=', .keyword .nullKeyword, .symbol ';']
  | .doCall => [.identifier "x", .symbol '(', .symbol ')']
  | .expression | .term => [.keyword .nullKeyword]
  | .call .. | .arguments .. => [.symbol '(', .symbol ')']
  | .qualifiedCall .. => [.identifier "x", .symbol '(', .symbol ')']
  | .argumentList .. | .moreArguments .. => [.symbol ')']
  | _ => []

theorem phrase_filler (g : Goal) : Phrase g (filler g) := by
  cases g with
  | emit | note | symbol | prologue | endOfClass => rfl
  | classDeclaration | className => exact ⟨⟨"x", [], []⟩, rfl⟩
  | classVariables | subroutines | parameters | moreParameters | localVariables | moreVariables
  | operators => exact ⟨[], rfl⟩
  | returnType => exact ⟨none, rfl⟩
  | subroutineName => exact ⟨"x", rfl⟩
  | parameter => exact ⟨⟨.int, "x"⟩, [], rfl⟩
  | parameterName | variableName => exact ⟨"x", [], rfl⟩
  | variableType => exact ⟨.int, "x", [], rfl⟩
  | statements => exact ⟨.nil, rfl⟩
  | letTarget => exact ⟨.assign "x" (.term .null), rfl⟩
  | assignment => exact .inl ⟨.term .null, rfl⟩
  | elseBranch | returnValue => exact .inl rfl
  | doCall => exact ⟨.own "x" .nil, rfl⟩
  | expression => exact ⟨.term .null, rfl⟩
  | term => exact ⟨.null, rfl⟩
  | named name => exact ⟨.variable name, rfl⟩
  | call name => exact ⟨.own name .nil, rfl⟩
  | qualifiedCall name => exact ⟨.qualified name "x" .nil, rfl⟩
  | arguments | argumentList | moreArguments => exact ⟨.nil, rfl⟩

theorem legal_filler (g : Goal) : ∀ k ∈ filler g, k.Legal := by
  have hx : IsName "x" := by
    unfold IsName
    decide
  cases g <;> simp [filler, Kind.Legal, hx]

theorem phrases_filler (agenda : List Goal) : Phrases agenda (agenda.flatMap filler) := by
  induction agenda with
  | nil => rfl
  | cons g agenda ih => exact ⟨_, _, phrase_filler g, ih, List.flatMap_cons⟩

/-! ## Runs -/

/-- The tokens lead from one agenda to another. -/
structure Led (agenda : List Goal) (s : State) (ts : List Token) (agenda' : List Goal) (s' : State) :
    Prop where
  tokens : s.input.tokens = ts ++ s'.input.tokens
  stop : s'.input.stop = s.input.stop
  /-- No token is taken in front of one that does not decode. -/
  ended : (s.input.tokens = [] → s.input.stop = none) → s'.input.tokens = [] → s'.input.stop = none
  build : ∀ p, Phrases agenda' p → Phrases agenda (ts.map (·.kind) ++ p)
  cut : ∀ p r, (p ++ r).head? = s'.next? → Parses agenda (ts.map (·.kind) ++ p) r →
    Parses agenda' p r
  tidy : Tidy agenda → Tidy agenda'

namespace Led

theorem refl (agenda : List Goal) (s : State) : Led agenda s [] agenda s where
  tokens := rfl
  stop := rfl
  ended h := h
  build _ hp := hp
  cut _ _ _ hp := hp
  tidy h := h

/-- What goes on with the token at hand does so from the start. -/
theorem head_eq_next? (htokens : s.input.tokens = ts ++ s'.input.tokens) {p : List Kind}
    (hp : p.head? = s'.next?) : (ts.map (·.kind) ++ p).head? = s.next? := by
  cases ts with
  | nil => simpa [next?, current?, htokens] using hp
  | cons t ts => simp [next?, current?, htokens]

theorem trans (h : Led agenda s ts agenda₁ s₁) (h' : Led agenda₁ s₁ ts' agenda' s') :
    Led agenda s (ts ++ ts') agenda' s' where
  tokens := by rw [h.tokens, h'.tokens, List.append_assoc]
  stop := h'.stop.trans h.stop
  ended hs := h'.ended (h.ended hs)
  build p hp := by
    rw [List.map_append, List.append_assoc]
    exact h.build _ (h'.build p hp)
  cut p r hn hp := by
    rw [List.map_append, List.append_assoc] at hp
    refine h'.cut p r hn (h.cut _ r ?_ hp)
    rw [List.append_assoc]
    exact head_eq_next? h'.tokens hn
  tidy ht := h'.tidy (h.tidy ht)

end Led

theorem tidy_append (h : Tidy goals) (hg : ∀ g' ∈ goals, g'.Whole → g.Whole)
    (ht : Tidy (g :: agenda)) : Tidy (goals ++ agenda) := by
  by_cases hw : g.Whole
  · rwa [ht.1 hw, List.append_nil]
  · induction goals with
    | nil => exact ht.2
    | cons g' goals ih =>
      refine ⟨fun hw' => absurd (hg g' (by simp) hw') hw, ih h.2 fun g'' h'' => ?_⟩
      exact hg g'' (List.mem_cons_of_mem _ h'')

theorem led_of_step (agenda : List Goal) (h : step s g = .ok (goals, s')) :
    ∃ ts, Led (g :: agenda) s ts (goals ++ agenda) s' := by
  have hfits := fits_step s g
  rw [h] at hfits
  obtain ⟨taken, ht, hx⟩ := hfits
  obtain ⟨⟨ts, htokens, rfl⟩, hstop, -, hended⟩ := takes_iff.1 ht
  refine ⟨ts, htokens, hstop, fun hs hnil => ?_, ?_, ?_, fun htidy => ?_⟩
  · cases ts with
    | nil => exact hstop.trans (hs (htokens.trans hnil))
    | cons t ts => exact hstop.trans ((hended (by simp)).resolve_left fun hne => hne hnil)
  · intro p hp
    obtain ⟨p₁, p₂, hp₁, hp₂, rfl⟩ := phrases_append.1 hp
    exact ⟨_, p₂, hx.build p₁ hp₁, hp₂, by simp⟩
  · rintro p r hn ⟨p₁, p₂, hp₁, hf, hp₂, hp⟩
    have hnext := Led.head_eq_next? htokens hn
    rw [← List.append_assoc, hp, List.append_assoc] at hnext
    obtain ⟨q, rfl, hq⟩ := hx.cut p₁ (p₂ ++ r) hp₁ hf hnext
    rw [List.append_assoc, List.append_cancel_left_eq] at hp
    exact hp ▸ hq.append hp₂
  · exact tidy_append hx.whole.1 hx.whole.2 htidy

variable {σ : Type} [Sink σ]

/-- A run that ends with a syntax error is led to the step that fails. -/
theorem exists_led_of_run {sink : σ} (h : (run agenda s sink).1 = .error e)
    (he : e.category = .syntactic) :
    ∃ ts g agenda' s', Led agenda s ts (g :: agenda') s' ∧ step s' g = .error e := by
  have hstep : ∀ {g : Goal} {goals agenda' : List Goal} {s₁ s₂ : State},
      (∃ ts, Led agenda s ts (g :: agenda') s₁) → step s₁ g = .ok (goals, s₂) →
      ∃ ts, Led agenda s ts (goals ++ agenda') s₂ := by
    rintro g goals agenda' s₁ s₂ ⟨ts, hl⟩ hs
    obtain ⟨ts', hl'⟩ := led_of_step agenda' hs
    exact ⟨ts ++ ts', hl.trans hl'⟩
  rcases step_error_of_run (P := fun agenda' s' => ∃ ts, Led agenda s ts agenda' s') hstep
    ⟨[], .refl _ _⟩ h with ⟨reason, rfl⟩ | ⟨g, agenda', s', ⟨ts, hl⟩, hs⟩
  · simp [Error.category] at he
  · exact ⟨ts, g, agenda', s', hl, hs⟩

end Compiler

/-! ## Syntax errors -/

namespace Syntax

/-- The tokens are those of a class, whatever names it uses. -/
def Grammatical (kinds : List Kind) : Prop := ∃ k : ClassDeclaration, k.tokens = kinds

/-- Tokens can be added so that there is a class. -/
def Viable (kinds : List Kind) : Prop :=
  ∃ rest, (∀ k ∈ rest, k.Legal) ∧ Grammatical (kinds ++ rest)

end Syntax

/-- There is a token with the span, and of its number this holds. -/
def Source.At (source : Source) (span : Span) (holds : Nat → Prop) : Prop :=
  (∃ t ∈ (TokenStream.ofSource source).tokens, t.span = span) ∧
    ∀ n t, (TokenStream.ofSource source).tokens[n]? = some t → t.span = span → holds n

theorem Source.at_of_split {source : Source} {before after : List Token} {t : Token}
    {holds : Nat → Prop} (h : (TokenStream.ofSource source).tokens = before ++ t :: after)
    (hn : holds before.length) : source.At t.span holds := by
  have ht : (TokenStream.ofSource source).tokens[before.length]? = some t := by simp [h]
  refine ⟨⟨t, by simp [h], rfl⟩, fun n t' ht' hspan => ?_⟩
  exact TokenStream.index_eq_of_span ht' ht hspan ▸ hn

open Syntax

/-- The error says where the tokens stop being the beginning of a class. -/
def Error.Grounded (source : Source) : Error → Prop
  | .unexpectedToken _ _ span => source.At span fun n =>
      Viable (source.kinds.take n) ∧ ∀ rest, ¬ Grammatical (source.kinds.take (n + 1) ++ rest)
  | .unexpectedEnd _ => source.Decodes ∧ Viable source.kinds ∧ ¬ Grammatical source.kinds
  | .trailingInput _ _ span => source.At span fun n => Grammatical (source.kinds.take n)
  | _ => True

namespace Compiler

open State

variable {g : Goal} {agenda : List Goal} {s s' : State} {ts : List Token}

theorem phrases_classDeclaration {kinds : List Kind} :
    Phrases [.classDeclaration] kinds ↔ Grammatical kinds := by
  simp only [phrases_singleton, Phrase, Grammatical, eq_comm]

theorem Led.viable (h : Led [.classDeclaration] s ts agenda s') : Viable (ts.map (·.kind)) := by
  refine ⟨agenda.flatMap filler, fun k hk => ?_, ?_⟩
  · obtain ⟨g, -, hk⟩ := List.mem_flatMap.1 hk
    exact legal_filler g k hk
  · exact phrases_classDeclaration.1 (h.build _ (phrases_filler agenda))

theorem Led.not_grammatical (h : Led [.classDeclaration] s ts (g :: agenda) s')
    (hbars : Bars g s'.next?) {rest : List Kind} (hr : rest.head? = s'.next?) :
    ¬ Grammatical (ts.map (·.kind) ++ rest) := by
  rintro ⟨k, hk⟩
  obtain ⟨p₁, p₂, hp₁, hf, -, rfl⟩ := h.cut rest [] (by rwa [List.append_nil])
    (.singleton ⟨k, hk.symm⟩ rfl)
  refine hbars p₁ (p₂ ++ []) hp₁ hf ?_
  rwa [List.append_nil]

theorem Led.grammatical (h : Led [.classDeclaration] s ts (.endOfClass :: agenda) s') :
    Grammatical (ts.map (·.kind)) := by
  obtain rfl : agenda = [] := (h.tidy (by simp)).1 (.inr (.inr rfl))
  have hg := h.build [] (phrases_singleton.2 rfl)
  rwa [List.append_nil, phrases_classDeclaration] at hg

theorem Led.grounded {source : Source}
    (hl : Led [.classDeclaration] { input := .ofSource source } ts (g :: agenda) s')
    (hstart : (TokenStream.ofSource source).tokens = [] → source.Decodes)
    (h : step s' g = .error e) (he : e.category = .syntactic) : e.Grounded source := by
  have hfits := fits_step s' g
  rw [h] at hfits
  obtain ⟨hbars, hspan, hend⟩ := hfits he
  have htokens : (TokenStream.ofSource source).tokens = ts ++ s'.input.tokens := hl.tokens
  have hkinds : source.kinds = ts.map (·.kind) ++ s'.input.tokens.map (·.kind) := by
    rw [Source.kinds, htokens, List.map_append]
  have htake : source.kinds.take ts.length = ts.map (·.kind) := by simp [hkinds]
  have hcurrent : ∀ span, e.span? = some span →
      ∃ t after, t.span = span ∧ s'.input.tokens = t :: after := fun span hs => by
    obtain ⟨t, ht, hts⟩ := Option.map_eq_some_iff.1 (hspan.symm.trans hs)
    exact ⟨t, _, hts, List.eq_cons_of_mem_head? ht⟩
  cases e with
  | unexpectedToken expected found span =>
    obtain ⟨t, after, rfl, hafter⟩ := hcurrent span rfl
    refine Source.at_of_split (hafter ▸ htokens) ⟨htake ▸ hl.viable, fun rest => ?_⟩
    have hupto : source.kinds.take (ts.length + 1) = ts.map (·.kind) ++ [t.kind] := by
      simp [hkinds, hafter, List.take_append, List.take_of_length_le]
    rw [hupto, List.append_assoc]
    exact hl.not_grammatical hbars (by simp [next?, current?, hafter])
  | unexpectedEnd expected =>
    have hnil : s'.input.tokens = [] :=
      List.head?_eq_none_iff.1 (Option.map_eq_none_iff.1 hspan.symm)
    have hall : source.kinds = ts.map (·.kind) := by simp [hkinds, hnil]
    refine ⟨hl.stop.symm.trans (hl.ended hstart hnil), hall ▸ hl.viable, ?_⟩
    have hnext : ([] : List Kind).head? = s'.next? := by simp [next?, current?, hnil]
    simpa [hall] using hl.not_grammatical hbars hnext
  | trailingInput name found span =>
    obtain ⟨t, after, rfl, hafter⟩ := hcurrent span rfl
    obtain rfl := hend _ _ _ rfl
    exact Source.at_of_split (hafter ▸ htokens) (htake ▸ hl.grammatical)
  | _ => trivial

/-- A syntax error is reported where the tokens stop being the beginning of a class. -/
theorem grounded_of_compile {σ : Type} [Sink σ] {source : Source} {sink : σ} {e : Error}
    (h : (compile source sink).1 = .error e) : e.Grounded source := by
  by_cases he : e.category = .syntactic
  · unfold compile compileTokens at h
    split at h
    · simp only [Except.error.injEq] at h
      subst h
      trivial
    · rename_i hstart
      obtain ⟨ts, g, agenda, s', hl, hs'⟩ := exists_led_of_run h he
      refine hl.grounded (fun hnil => ?_) hs' he
      cases hs : (TokenStream.ofSource source).stop with
      | none => exact hs
      | some e => exact absurd (by rw [← hnil, ← hs]) (hstart e)
  · cases e <;> trivial

/-- A declaration that is not closed. -/
theorem grounded_of_compile_open : ∃ e : Error,
    (compile (.ofString "class A { field int x }") ({} : Collector)).1 = .error e ∧
      e = .unexpectedToken (quoted ";") "\x7d" ⟨22, 23⟩ ∧
      e.Grounded (.ofString "class A { field int x }") := by
  have h : (compile (.ofString "class A { field int x }") ({} : Collector)).1 =
      .error (.unexpectedToken (quoted ";") "\x7d" ⟨22, 23⟩) := by decide +kernel
  exact ⟨_, h, rfl, grounded_of_compile h⟩

end Compiler

end Jack

import Jack.Proofs.Productions

/-!
# Productions of expressions

The steps of the goals that read expressions fit the grammar. The token at hand tells the terms apart
(`phrase_term_cons`), except that those which begin with a name are told apart by the token behind it
(`fits_named`); so no term ends in front of a token that could go on with a name.
-/

namespace Jack.Compiler

open Syntax State Goal
open Token (Kind)

variable {s : State} {p r : List Kind}

/-! ## Expressions -/

/-- Behind a term there is an operator, or what stands behind the chain. -/
theorem not_extends_chain (chain : Chain) (h : ¬ Extends r.head?) :
    ¬ Extends (chain.tokens ++ r).head? := by
  cases chain with
  | nil => exact h
  | cons link chain => exact not_extends_operator _

theorem fits_expression : Fits s .expression (step s .expression) := by
  refine fits_kept ⟨?_, ?_, by simp [Whole]⟩ rfl
  · simp only [phrases_cons, Phrase]
    rintro _ ⟨_, _, ⟨t, rfl⟩, ⟨_, _, ⟨chain, rfl⟩, rfl, rfl⟩, rfl⟩
    exact ⟨.ofChain (.term t) chain, by simp [Expression.tokens_ofChain, Expression.tokens]⟩
  · rintro p r ⟨e, rfl⟩ hf -
    obtain ⟨t, chain, rfl⟩ := e.exists_chain
    refine ⟨_, rfl, ?_⟩
    rw [Expression.tokens_ofChain, Expression.tokens]
    exact .cons ⟨t, rfl⟩ (not_extends_chain chain hf.1) (.singleton ⟨chain, rfl⟩ hf)

theorem fits_operators : Fits s .operators (step s .operators) := by
  have hlinks : Repeats .operators (fun link : Operator × Term => .symbol link.1.symbol)
      (·.2.tokens) := fun _ => Iff.rfl
  refine fits_accept (fun hn => fits_kept (hlinks.ending fun link hl => ?_) rfl)
    fun k op s₁ hk ht =>
      fits_taken ht rfl (hlinks.item (by simp [Follow, Closing, hk]) ?_ ?_ (by simp [Whole]))
  · rw [hl, Option.bind_some, operator?_eq_some.2 rfl] at hn
    simp at hn
  · obtain rfl := operator?_eq_some.1 hk
    simp only [phrases_cons, Phrase]
    rintro _ ⟨_, _, ⟨t, rfl⟩, ⟨_, _, rfl, ⟨_, _, ⟨chain, rfl⟩, rfl, rfl⟩, rfl⟩, rfl⟩
    exact ⟨(op, t), _, rfl, ⟨chain, rfl⟩, by simp⟩
  · rintro link _ r - ⟨chain, rfl⟩ hf
    exact .cons ⟨link.2, rfl⟩ (not_extends_chain chain hf.1) (.emit (.singleton ⟨chain, rfl⟩ hf))

/-- The rest of a term behind this token; nothing for a token that begins none. -/
def TermRest : Kind → List Kind → Prop
  | .integer _, p | .string _, p => p = []
  | .keyword k, p => k ∈ [.trueKeyword, .falseKeyword, .nullKeyword, .thisKeyword] ∧ p = []
  | .identifier name, p => ∃ t : Term, t.tokens = .identifier name :: p
  | .symbol c, p => c = '(' ∧ (∃ e : Expression, p = e.tokens ++ [.symbol ')']) ∨
      (c = '-' ∨ c = '~') ∧ ∃ t : Term, p = t.tokens

theorem phrase_term_cons {k : Kind} : Phrase .term (k :: p) ↔ TermRest k p := by
  constructor
  · rintro ⟨t, h⟩
    cases t with
    | unary op t =>
      cases op <;> obtain ⟨rfl, rfl⟩ := List.cons.inj h
      · exact .inr ⟨.inl rfl, t, rfl⟩
      · exact .inr ⟨.inr rfl, t, rfl⟩
    | group e =>
      obtain ⟨rfl, rfl⟩ := List.cons.inj h
      exact .inl ⟨rfl, e, rfl⟩
    | «variable» name =>
      obtain ⟨rfl, rfl⟩ := List.cons.inj h
      exact ⟨.variable name, rfl⟩
    | element array index =>
      obtain ⟨rfl, rfl⟩ := List.cons.inj h
      exact ⟨.element array index, rfl⟩
    | call cl =>
      cases cl with
      | own name args =>
        obtain ⟨rfl, rfl⟩ := List.cons.inj h
        exact ⟨.call (.own name args), rfl⟩
      | qualified qualifier name args =>
        obtain ⟨rfl, rfl⟩ := List.cons.inj h
        exact ⟨.call (.qualified qualifier name args), rfl⟩
    | _ => simp_all [Term.tokens, TermRest]
  · intro h
    cases k with
    | integer value => exact ⟨.integer value, by rw [show p = [] from h]; rfl⟩
    | string content => exact ⟨.string content, by rw [show p = [] from h]; rfl⟩
    | identifier name =>
      obtain ⟨t, h⟩ := h
      exact ⟨t, h.symm⟩
    | keyword k =>
      obtain ⟨hk, rfl⟩ := h
      simp only [List.mem_cons, List.not_mem_nil, or_false] at hk
      rcases hk with rfl | rfl | rfl | rfl
      · exact ⟨.true, rfl⟩
      · exact ⟨.false, rfl⟩
      · exact ⟨.null, rfl⟩
      · exact ⟨.this, rfl⟩
    | symbol c =>
      rcases h with ⟨rfl, e, rfl⟩ | ⟨rfl | rfl, t, rfl⟩
      · exact ⟨.group e, rfl⟩
      · exact ⟨.unary .negate t, rfl⟩
      · exact ⟨.unary .complement t, rfl⟩

theorem not_phrase_term_nil : ¬ Phrase .term [] := by
  rintro ⟨t, h⟩
  obtain ⟨k, kinds, ht, -⟩ := t.exists_tokens_cons
  simp [ht] at h

theorem expands_term {k : Kind} {goals : List Goal} (build : ∀ p, Phrases goals p → TermRest k p)
    (cut : ∀ p r, TermRest k p → ¬ Extends r.head? → Parses goals p r)
    (whole : Tidy goals ∧ ∀ g' ∈ goals, g'.Whole → Goal.term.Whole) :
    Expands .term (some k) [k] goals :=
  .behind (fun h => absurd h not_phrase_term_nil) (fun p hp => phrase_term_cons.2 (build p hp))
    (fun p r hp hf => cut p r (phrase_term_cons.1 hp) hf) whole

/-- A term of one token. -/
theorem expands_token {k : Kind} (code : List Instruction) (hk : ∀ p, TermRest k p ↔ p = []) :
    Expands .term (some k) [k] [.emit code] :=
  expands_term (by simp [hk, Phrase]) (fun p r hp _ => .emit ((hk p).1 hp)) (by simp [Whole])

theorem expands_unary {c : Char} (hc : c = '-' ∨ c = '~') (code : List Instruction) :
    Expands .term (some (.symbol c)) [.symbol c] [.term, .emit code] := by
  refine expands_term ?_ ?_ (by simp [Whole])
  · simp only [phrases_cons, Phrase]
    rintro _ ⟨_, _, ⟨t, rfl⟩, ⟨_, _, rfl, rfl, rfl⟩, rfl⟩
    exact .inr ⟨hc, t, by simp⟩
  · rintro p r (⟨rfl, -⟩ | ⟨-, t, rfl⟩) hf
    · simp at hc
    · rw [← t.tokens.append_nil]
      exact .cons ⟨t, rfl⟩ hf (.emit rfl)

theorem fits_stepTerm {s₁ : State} {t : Token} (hc : s.current? = some t)
    (ht : s.Takes [t.kind] s₁) : Fits s .term (stepTerm s₁ t) := by
  have hnext := ht.next?_eq
  have bars : (∀ p, ¬ TermRest t.kind p) →
      Fits s .term (.error (.unexpectedToken "a term" t.lexeme t.span)) := by
    refine fun hrest _ => ⟨?_, by simp [Error.span?, hc], by simp⟩
    rintro (_ | ⟨k, p⟩) r hp - hr
    · exact not_phrase_term_nil hp
    · obtain rfl : k = t.kind := Option.some.inj (hr.trans hnext)
      exact hrest p (phrase_term_cons.1 hp)
  unfold stepTerm
  split <;> rename_i hkind <;> rw [hkind] at ht bars
  case h_7 name =>
    exact fits_taken ht rfl (.onward (fun h => absurd h not_phrase_term_nil)
      (fun _ => phrase_term_cons) (fun _ => id) (by simp [Whole]))
  case h_8 c =>
    split
    · rename_i hparen
      subst hparen
      refine fits_taken ht rfl (expands_term ?_ ?_ (by simp [Whole]))
      · simp only [phrases_cons, Phrase]
        rintro _ ⟨_, _, ⟨e, rfl⟩, ⟨_, _, rfl, rfl, rfl⟩, rfl⟩
        exact .inl ⟨rfl, e, rfl⟩
      · rintro p r (⟨-, e, rfl⟩ | ⟨h, -⟩) hf
        · exact .cons ⟨e, rfl⟩ (closing_symbol (by simp)) (.symbol rfl)
        · simp at h
    · rename_i hparen
      split
      · rename_i hminus
        exact fits_taken ht rfl (hminus ▸ expands_unary (.inl hminus) _)
      · rename_i hminus
        split
        · rename_i htilde
          exact fits_taken ht rfl (htilde ▸ expands_unary (.inr htilde) _)
        · rename_i htilde
          refine bars fun p hp => ?_
          rcases hp with ⟨h, -⟩ | ⟨h | h, -⟩ <;> contradiction
  case h_9 k htrue hfalse hnull hthis =>
    refine bars fun p hp => ?_
    obtain ⟨hk, -⟩ := hp
    simp only [List.mem_cons, List.not_mem_nil, or_false] at hk
    rcases hk with rfl | rfl | rfl | rfl <;> contradiction
  all_goals exact fits_taken ht rfl (expands_token _ (by simp [TermRest]))

theorem fits_term : Fits s .term (step s .term) := by
  simp only [step]
  split
  · rename_i hc
    refine fun _ => ⟨?_, by simp [Error.span?, hc], by simp⟩
    rintro (_ | ⟨k, p⟩) r hp - hr
    · exact not_phrase_term_nil hp
    · simp [next?, hc] at hr
  · rename_i t hc
    exact fits_bind (fun e he => fits_error (category_of_drop he)) fun s₁ hd =>
      fits_stepTerm hc (takes_singleton.2 ⟨t, hc, rfl, hd⟩)

/-! ## Names and calls -/

theorem fits_meaning {g : Goal} {name : String} {span : Span}
    {f : Symbol → Except Error (List Goal × State)} {s₁ : State}
    (h : ∀ symbol, Fits s g (f symbol)) : Fits s g (s₁.meaning name span >>= f) := by
  refine fits_bind (fun e he => fits_error ?_) fun symbol _ => h symbol
  simp only [meaning] at he
  split at he <;> simp only [Except.error.injEq, reduceCtorEq] at he
  subst he
  simp [Error.category]

theorem phrases_index {base : Symbol} {goals : List Goal} :
    Phrases (index base ++ goals) p ↔ ∃ (e : Expression) (q : List Kind),
      Phrases goals q ∧ p = .symbol '[' :: e.tokens ++ .symbol ']' :: q := by
  simp only [index, List.cons_append, List.nil_append, phrases_emit, phrases_symbol]
  simp only [phrases_cons, Phrase]
  constructor
  · rintro ⟨_, ⟨_, _, ⟨e, rfl⟩, ⟨_, _, rfl, ⟨_, _, rfl, hq, rfl⟩, rfl⟩, rfl⟩, rfl⟩
    exact ⟨e, _, hq, by simp⟩
  · rintro ⟨e, q, hq, rfl⟩
    exact ⟨_, ⟨_, _, ⟨e, rfl⟩, ⟨_, _, rfl, ⟨_, q, rfl, hq, rfl⟩, rfl⟩, rfl⟩, by simp⟩

theorem parses_index {base : Symbol} {goals : List Goal} (e : Expression) (h : Parses goals p r) :
    Parses (index base ++ goals) (.symbol '[' :: e.tokens ++ .symbol ']' :: p) r :=
  .emit <| .symbol <| .cons ⟨e, rfl⟩ (closing_symbol (by simp)) <| .symbol <| .emit h

/-- A call goes on with a bracket or a dot. -/
theorem head_of_call {cl : Call} {name : String} (h : cl.tokens = .identifier name :: p)
    (rest : List Kind) :
    (p ++ rest).head? = some (.symbol '(') ∨ (p ++ rest).head? = some (.symbol '.') := by
  cases cl with
  | own name' args =>
    obtain ⟨-, rfl⟩ := List.cons.inj h
    exact .inl rfl
  | qualified qualifier name' args =>
    obtain ⟨-, rfl⟩ := List.cons.inj h
    exact .inr rfl

theorem fits_named {name : String} {span : Span} :
    Fits s (.named name span) (step s (.named name span)) := by
  simp only [step, at?_eq_true, Bool.or_eq_true]
  split
  case isTrue hn =>
    refine fits_meaning fun array => fits_kept ⟨?_, ?_, by simp [Whole, index]⟩ rfl
    · simp only [phrases_index, phrases_emit, phrases_nil]
      rintro _ ⟨e, _, rfl, rfl⟩
      exact ⟨.element name e, by simp [Term.tokens]⟩
    · rintro p r ⟨t, ht⟩ hf hr
      rw [hn] at hr
      rcases tokens_eq_identifier ht with ⟨-, rfl⟩ | ⟨e, -, rfl⟩ | ⟨cl, -, hcl⟩
      · exact absurd (.inl hr) hf
      · exact ⟨_, rfl, parses_index e (.emit rfl)⟩
      · rcases head_of_call hcl r with h | h <;> simp [hr] at h
  case isFalse hn =>
    split
    case isTrue hn' =>
      refine fits_kept ⟨?_, ?_, by simp [Whole]⟩ rfl
      · simp only [phrases_singleton]
        rintro p ⟨cl, hcl⟩
        exact ⟨.call cl, hcl⟩
      · rintro p r ⟨t, ht⟩ hf hr
        rw [← hr] at hn hn'
        rcases tokens_eq_identifier ht with ⟨-, rfl⟩ | ⟨e, -, rfl⟩ | ⟨cl, -, hcl⟩
        · exact absurd (.inr hn') hf
        · exact absurd rfl hn
        · exact ⟨p, rfl, .singleton ⟨cl, hcl⟩ trivial⟩
    case isFalse hn' =>
      refine fits_meaning fun value => fits_kept ⟨?_, ?_, by simp [Whole]⟩ rfl
      · simp only [phrases_emit, phrases_nil]
        rintro _ rfl
        exact ⟨.variable name, rfl⟩
      · rintro p r ⟨t, ht⟩ hf hr
        rw [← hr] at hn hn'
        rcases tokens_eq_identifier ht with ⟨-, rfl⟩ | ⟨e, -, rfl⟩ | ⟨cl, -, hcl⟩
        · exact ⟨[], rfl, .emit rfl⟩
        · exact absurd rfl hn
        · exact absurd (head_of_call hcl r) hn'

theorem fits_call {name : String} {span : Span} :
    Fits s (.call name span) (step s (.call name span)) := by
  simp only [step, at?_eq_true]
  split
  case isTrue hn =>
    refine fits_kept ⟨?_, ?_, by simp [Whole]⟩ rfl
    · simp only [phrases_emit, phrases_singleton]
      rintro _ ⟨args, rfl⟩
      exact ⟨.own name args, by simp [Call.tokens]⟩
    · rintro p r ⟨cl, hcl⟩ - hr
      rw [hn] at hr
      cases cl with
      | own name' args =>
        obtain ⟨-, rfl⟩ := List.cons.inj hcl
        exact ⟨_, rfl, .emit (.singleton ⟨args, rfl⟩ trivial)⟩
      | qualified qualifier name' args =>
        obtain ⟨-, rfl⟩ := List.cons.inj hcl
        simp at hr
  case isFalse hn =>
    refine fits_requireExactly (fun hn' => ?_) fun span s₁ ht =>
      fits_taken ht rfl (.onward (fun h _ => ?_) (fun _ => Iff.rfl) (fun _ => id) (by simp [Whole]))
    · rintro p r ⟨cl, hcl⟩ - hr
      rcases head_of_call hcl r with h | h
      · exact hn (hr.symm.trans h)
      · exact hn' (hr.symm.trans h)
    · obtain ⟨cl, hcl⟩ := h
      simpa using head_of_call hcl []

theorem fits_qualifiedCall {name : String} {span : Span} :
    Fits s (.qualifiedCall name span) (step s (.qualifiedCall name span)) := by
  have cut : ∀ {p : List Kind}, Phrase (.qualifiedCall name span) p →
      ∃ (subroutine : String) (q : List Kind), p = .identifier subroutine :: q ∧
        ∃ args : Arguments, q = .symbol '(' :: args.tokens ++ [.symbol ')'] := by
    rintro p ⟨cl, hcl⟩
    cases cl with
    | own name' args => simp [Call.tokens] at hcl
    | qualified qualifier subroutine args =>
      simp only [Call.tokens, List.cons_append, List.cons.injEq, true_and] at hcl
      exact ⟨subroutine, _, hcl.2.symm, args, rfl⟩
  refine fits_requireName (fun hn => bars_of_begins fun p hp => ?_) fun subroutine span' s₁ ht => ?_
  · obtain ⟨subroutine, q, rfl, -⟩ := cut hp
    exact ⟨_, _, rfl, hn subroutine⟩
  have build : ∀ (p : List Kind) (f : String) (n : Nat), Phrase (.arguments f n) p →
      Phrase (.qualifiedCall name span) (.identifier subroutine :: p) := by
    rintro _ f n ⟨args, rfl⟩
    exact ⟨.qualified name subroutine args, rfl⟩
  have hnil : Phrase (.qualifiedCall name span) [] → False := fun h => by simpa using cut h
  have hrest : ∀ (p r : List Kind) (f : String) (n : Nat),
      Phrase (.qualifiedCall name span) (.identifier subroutine :: p) →
      Parses [.arguments f n] p r := fun p r f n hp => by
    obtain ⟨_, q, hq, hargs⟩ := cut hp
    rw [(List.cons.inj hq).2]
    exact .singleton hargs trivial
  refine fits_bind (fun e he => fits_error ?_) fun goals hgoals => ?_
  · simp only [stepQualified] at he
    repeat' split at he
    all_goals simp only [Except.error.injEq, reduceCtorEq] at he
    subst he
    simp [Error.category]
  · simp only [stepQualified] at hgoals
    repeat' split at hgoals
    all_goals simp only [Except.ok.injEq, reduceCtorEq] at hgoals
    all_goals
      subst hgoals
      refine fits_taken ht rfl (.behind (fun h _ => hnil h) ?_ ?_ (by simp [Whole]))
    · simp only [phrases_emit, phrases_singleton]
      exact fun p hp => build p _ _ hp
    · exact fun p r hp _ => .emit (hrest p r _ _ hp)
    · simp only [phrases_singleton]
      exact fun p hp => build p _ _ hp
    · exact fun p r hp _ => hrest p r _ _ hp

theorem fits_arguments {f : String} {n : Nat} :
    Fits s (.arguments f n) (step s (.arguments f n)) := by
  refine fits_requireSymbol (fun hn => bars_of_begins ?_) fun s₁ ht =>
    fits_taken ht rfl (.onward (by simp [Phrase]) (by simp [Phrase]) (fun _ => id) (by simp [Whole]))
  rintro _ ⟨args, rfl⟩
  exact ⟨_, _, rfl, hn⟩

theorem expands_closeCall {f : String} {n : Nat} {g : Goal} {next : Option Kind}
    (hg : Phrase g [.symbol ')'])
    (hcut : ∀ p r, Phrase g p → (p ++ r).head? = next → p = [.symbol ')']) :
    Expands g next [] (closeCall f n) := by
  refine ⟨?_, ?_, by simp [Whole, closeCall]⟩
  · simp only [closeCall, phrases_symbol, phrases_emit, phrases_nil]
    rintro _ ⟨_, rfl, rfl⟩
    exact hg
  · intro p r hp _ hr
    exact ⟨p, rfl, hcut p r hp hr ▸ .symbol (.emit rfl)⟩

/-- An argument and what is behind it. -/
theorem parses_argument {f : String} {n : Nat} (first : Expression) (rest : Arguments) :
    Parses [.expression, .moreArguments f n] (first.tokens ++ (rest.moreTokens ++ [.symbol ')']))
      r := by
  refine .cons ⟨first, rfl⟩ ?_ (.singleton ⟨rest, rfl⟩ trivial)
  cases rest <;> exact closing_symbol (by simp)

theorem fits_argumentList {f : String} {n : Nat} :
    Fits s (.argumentList f n) (step s (.argumentList f n)) := by
  simp only [step, at?_eq_true]
  split
  case isTrue hn =>
    refine fits_kept (expands_closeCall ⟨.nil, rfl⟩ ?_) rfl
    rintro p r ⟨args, rfl⟩ hr
    cases args with
    | nil => rfl
    | cons first rest =>
      obtain ⟨k, kinds, hk, hne, -⟩ := first.exists_tokens_cons
      rw [Arguments.tokens_cons, hk, hn] at hr
      exact absurd (Option.some.inj hr) hne
  case isFalse hn =>
    refine fits_kept ⟨?_, ?_, by simp [Whole]⟩ rfl
    · simp only [phrases_cons, Phrase]
      rintro _ ⟨_, _, ⟨first, rfl⟩, ⟨_, _, ⟨rest, rfl⟩, rfl, rfl⟩, rfl⟩
      exact ⟨.cons first rest, by simp [Arguments.tokens_cons]⟩
    · rintro p r ⟨args, rfl⟩ - hr
      cases args with
      | nil => exact absurd hr.symm hn
      | cons first rest =>
        exact ⟨_, by rw [Arguments.tokens_cons, List.append_assoc]; rfl, parses_argument first rest⟩

theorem fits_moreArguments {f : String} {n : Nat} :
    Fits s (.moreArguments f n) (step s (.moreArguments f n)) := by
  refine fits_acceptExactly (fun hn => fits_kept (expands_closeCall ⟨.nil, rfl⟩ ?_) rfl) fun s₁ ht =>
    fits_taken ht rfl (.behind (by simp [Phrase]) ?_ ?_ (by simp [Whole]))
  · rintro p r ⟨args, rfl⟩ hr
    cases args with
    | nil => rfl
    | cons first rest => exact absurd hr.symm hn
  · simp only [phrases_cons, Phrase]
    rintro _ ⟨_, _, ⟨first, rfl⟩, ⟨_, _, ⟨rest, rfl⟩, rfl, rfl⟩, rfl⟩
    exact ⟨.cons first rest, by simp [Arguments.moreTokens]⟩
  · rintro p r ⟨_ | ⟨first, rest⟩, hp⟩ -
    · simp [Arguments.moreTokens] at hp
    · simp only [Arguments.moreTokens, List.cons_append, List.append_assoc, List.cons.injEq,
        true_and] at hp
      rw [hp]
      exact parses_argument first rest

end Jack.Compiler

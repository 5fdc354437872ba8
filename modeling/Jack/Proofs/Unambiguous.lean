import Jack.Proofs.ClassProductions
import Jack.Proofs.StatementProductions

/-!
# The grammar is unambiguous

The tokens of a phrase tell the phrase, and where it ends: whatever stands behind it, as long as the
phrase does not go on there. For a term that is no bracket or dot (`Term.tokens_append_inj`), for a
statement no `else` (`Statement.tokens_append_inj`), and an expression goes on with every operator,
so that of two expressions with the same tokens one may be the beginning of the other
(`Expression.begins_or_begins`). A class has no other reading (`ClassDeclaration.tokens_injective`).
-/

namespace Jack.Syntax

open Compiler State
open Token (Kind)

variable {q q' r r' : List Kind}

/-! ## Expressions -/

theorem Chain.eq_nil_of_closing {chain : Chain} (h : Closing (chain.tokens ++ r).head?) :
    chain = [] := by
  cases chain with
  | nil => rfl
  | cons link chain =>
    have hop := h.2
    simp [Chain.tokens, operator?] at hop

/-- One expression is the beginning of the other. -/
def Expression.Begins (e e' : Expression) (q q' : List Kind) : Prop :=
  ∃ chain : Chain, e' = e.ofChain chain ∧ q = chain.tokens ++ q'

theorem Expression.eq_of_begins {e e' : Expression} (h : e.Begins e' q q' ∨ e'.Begins e q' q)
    (hq : Closing q.head?) (hq' : Closing q'.head?) : e = e' ∧ q = q' := by
  rcases h with ⟨chain, rfl, rfl⟩ | ⟨chain, rfl, rfl⟩
  · obtain rfl := Chain.eq_nil_of_closing hq
    exact ⟨rfl, rfl⟩
  · obtain rfl := Chain.eq_nil_of_closing hq'
    exact ⟨rfl, rfl⟩

theorem Arguments.closing_moreTokens (args : Arguments) :
    Closing (args.moreTokens ++ .symbol ')' :: r).head? := by
  cases args <;> exact closing_symbol (by simp)

mutual

theorem Term.tokens_append_inj : ∀ (t t' : Term) {r r' : List Kind},
    t.tokens ++ r = t'.tokens ++ r' → ¬ Extends r.head? → ¬ Extends r'.head? → t = t' ∧ r = r'
  | .integer _, t', r, r', h, hr, hr' | .string _, t', r, r', h, hr, hr'
  | .true, t', r, r', h, hr, hr' | .false, t', r, r', h, hr, hr'
  | .null, t', r, r', h, hr, hr' | .this, t', r, r', h, hr, hr' => by
    cases t' with
    | unary op t => cases op <;> simp [Term.tokens, UnaryOperator.token] at h
    | call c => cases c <;> simp [Term.tokens, Call.tokens] at h
    | _ => simp_all [Term.tokens]
  | .group e, t', r, r', h, hr, hr' => by
    cases t' with
    | group e' =>
      simp only [Term.tokens, List.cons_append, List.append_assoc, List.cons.injEq, true_and] at h
      obtain ⟨rfl, hrest⟩ :=
        e.tokens_append_inj e' h (closing_symbol (by simp)) (closing_symbol (by simp))
      exact ⟨rfl, (List.cons.inj hrest).2⟩
    | unary op t => cases op <;> simp [Term.tokens, UnaryOperator.token] at h
    | call c => cases c <;> simp [Term.tokens, Call.tokens] at h
    | _ => simp [Term.tokens] at h
  | .unary op t, t', r, r', h, hr, hr' => by
    cases t' with
    | unary op' t' =>
      simp only [Term.tokens, List.cons_append, List.cons.injEq] at h
      obtain ⟨rfl, rfl⟩ := t.tokens_append_inj t' h.2 hr hr'
      cases op <;> cases op' <;> simp_all [UnaryOperator.token]
    | call c => cases op <;> cases c <;> simp [Term.tokens, Call.tokens, UnaryOperator.token] at h
    | _ => cases op <;> simp [Term.tokens, UnaryOperator.token] at h
  | .variable name, t', r, r', h, hr, hr' => by
    cases t' with
    | unary op t => cases op <;> simp [Term.tokens, UnaryOperator.token] at h
    | call c => cases c <;> simp_all [Term.tokens, Call.tokens, Extends]
    | _ => simp_all [Term.tokens, Extends]
  | .element array index, t', r, r', h, hr, hr' => by
    cases t' with
    | element array' index' =>
      simp only [Term.tokens, List.cons_append, List.append_assoc, List.cons.injEq, true_and,
        Kind.identifier.injEq] at h
      obtain ⟨rfl, h⟩ := h
      obtain ⟨rfl, hrest⟩ :=
        index.tokens_append_inj index' h (closing_symbol (by simp)) (closing_symbol (by simp))
      exact ⟨rfl, (List.cons.inj hrest).2⟩
    | «variable» name =>
      obtain ⟨-, rfl⟩ := List.cons.inj h
      exact absurd (.inl rfl) hr'
    | unary op t => cases op <;> simp [Term.tokens, UnaryOperator.token] at h
    | call c => cases c <;> simp [Term.tokens, Call.tokens] at h
    | _ => simp [Term.tokens] at h
  | .call c, t', r, r', h, hr, hr' => by
    cases t' with
    | call c' =>
      obtain ⟨rfl, rfl⟩ := c.tokens_append_inj c' h
      exact ⟨rfl, rfl⟩
    | «variable» name =>
      cases c <;> obtain ⟨-, rfl⟩ := List.cons.inj h
      · exact absurd (.inr (.inl rfl)) hr'
      · exact absurd (.inr (.inr rfl)) hr'
    | unary op t =>
      cases c <;> cases op <;> simp [Term.tokens, Call.tokens, UnaryOperator.token] at h
    | _ => cases c <;> simp [Term.tokens, Call.tokens] at h

theorem Expression.begins_or_begins : ∀ (e e' : Expression) {q q' : List Kind},
    e.tokens ++ q = e'.tokens ++ q' → ¬ Extends q.head? → ¬ Extends q'.head? →
      e.Begins e' q q' ∨ e'.Begins e q' q
  | .term t, e', q, q', h, hq, hq' => by
    obtain ⟨t', chain, rfl⟩ := e'.exists_chain
    rw [Expression.tokens_ofChain, List.append_assoc] at h
    obtain ⟨rfl, rfl⟩ := t.tokens_append_inj t' h hq (not_extends_chain chain hq')
    exact .inl ⟨chain, rfl, rfl⟩
  | .operation left op right, e', q, q', h, hq, hq' => by
    rw [Expression.tokens, List.append_assoc, List.cons_append] at h
    rcases left.begins_or_begins e' h (not_extends_operator op) hq' with
      ⟨chain, rfl, hrest⟩ | ⟨chain, rfl, rfl⟩
    · cases chain with
      | nil => exact .inr ⟨[(op, right)], rfl, by simpa [Chain.tokens] using hrest.symm⟩
      | cons link chain =>
        obtain ⟨op', right'⟩ := link
        rw [Chain.tokens, List.flatMap_cons, List.cons_append, List.cons_append,
          List.append_assoc] at hrest
        obtain ⟨hop, hright⟩ := List.cons.inj hrest
        obtain rfl := Operator.symbol_injective (Kind.symbol.inj hop)
        obtain ⟨rfl, rfl⟩ := right.tokens_append_inj right' hright hq (not_extends_chain chain hq')
        exact .inl ⟨chain, rfl, rfl⟩
    · exact .inr ⟨chain ++ [(op, right)], by simp [Expression.ofChain],
        by simp [Chain.tokens, List.flatMap_append]⟩

theorem Expression.tokens_append_inj : ∀ (e e' : Expression) {q q' : List Kind},
    e.tokens ++ q = e'.tokens ++ q' → Closing q.head? → Closing q'.head? → e = e' ∧ q = q'
  | e, e', q, q', h, hq, hq' =>
    Expression.eq_of_begins (e.begins_or_begins e' h hq.1 hq'.1) hq hq'

theorem Call.tokens_append_inj : ∀ (c c' : Call) {r r' : List Kind},
    c.tokens ++ r = c'.tokens ++ r' → c = c' ∧ r = r'
  | .own name args, c', r, r', h => by
    cases c' with
    | own name' args' =>
      simp only [Call.tokens, List.cons_append, List.append_assoc, List.cons.injEq, true_and,
        Kind.identifier.injEq] at h
      obtain ⟨rfl, h⟩ := h
      obtain ⟨rfl, rfl⟩ := args.tokens_append_inj args' h
      exact ⟨rfl, rfl⟩
    | qualified => simp [Call.tokens] at h
  | .qualified qualifier name args, c', r, r', h => by
    cases c' with
    | qualified qualifier' name' args' =>
      simp only [Call.tokens, List.cons_append, List.append_assoc, List.cons.injEq, true_and,
        Kind.identifier.injEq] at h
      obtain ⟨rfl, rfl, h⟩ := h
      obtain ⟨rfl, rfl⟩ := args.tokens_append_inj args' h
      exact ⟨rfl, rfl⟩
    | own => simp [Call.tokens] at h

theorem Arguments.tokens_append_inj : ∀ (args args' : Arguments) {r r' : List Kind},
    args.tokens ++ .symbol ')' :: r = args'.tokens ++ .symbol ')' :: r' → args = args' ∧ r = r'
  | .nil, args', r, r', h => by
    cases args' with
    | nil => exact ⟨rfl, (List.cons.inj h).2⟩
    | cons first rest =>
      obtain ⟨k, kinds, hfirst, hk, -⟩ := first.exists_tokens_cons
      rw [Arguments.tokens_cons, hfirst] at h
      exact absurd (List.cons.inj h).1.symm hk
  | .cons first rest, args', r, r', h => by
    cases args' with
    | nil =>
      obtain ⟨k, kinds, hfirst, hk, -⟩ := first.exists_tokens_cons
      rw [Arguments.tokens_cons, hfirst] at h
      exact absurd (List.cons.inj h).1 hk
    | cons first' rest' =>
      rw [Arguments.tokens_cons, Arguments.tokens_cons, List.append_assoc, List.append_assoc] at h
      obtain ⟨rfl, hrest⟩ :=
        first.tokens_append_inj first' h rest.closing_moreTokens rest'.closing_moreTokens
      obtain ⟨rfl, rfl⟩ := rest.moreTokens_append_inj rest' hrest
      exact ⟨rfl, rfl⟩

theorem Arguments.moreTokens_append_inj : ∀ (args args' : Arguments) {r r' : List Kind},
    args.moreTokens ++ .symbol ')' :: r = args'.moreTokens ++ .symbol ')' :: r' →
      args = args' ∧ r = r'
  | .nil, args', r, r', h => by
    cases args' <;> simp_all [Arguments.moreTokens]
  | .cons first rest, args', r, r', h => by
    cases args' with
    | nil => simp [Arguments.moreTokens] at h
    | cons first' rest' =>
      simp only [Arguments.moreTokens, List.cons_append, List.append_assoc, List.cons.injEq,
        true_and] at h
      obtain ⟨rfl, hrest⟩ :=
        first.tokens_append_inj first' h rest.closing_moreTokens rest'.closing_moreTokens
      obtain ⟨rfl, rfl⟩ := rest.moreTokens_append_inj rest' hrest
      exact ⟨rfl, rfl⟩

end

theorem Expression.tokens_append_symbol_inj {c : Char} (hc : c ∈ [')', ']', ',', ';'])
    {e e' : Expression} (h : e.tokens ++ .symbol c :: q = e'.tokens ++ .symbol c :: q') :
    e = e' ∧ q = q' := by
  obtain ⟨rfl, hrest⟩ := e.tokens_append_inj e' h (closing_symbol hc) (closing_symbol hc)
  exact ⟨rfl, (List.cons.inj hrest).2⟩

/-! ## Statements -/

theorem tokens_giveBack_append_inj {value value' : Option Expression}
    (h : (Statement.giveBack value).tokens ++ r = (Statement.giveBack value').tokens ++ r') :
    value = value' ∧ r = r' := by
  have hsemicolon : ∀ {e : Expression} {r r' : List Kind},
      .symbol ';' :: r ≠ e.tokens ++ .symbol ';' :: r' := fun {e r r'} heq => by
    obtain ⟨k, kinds, he, -, hk⟩ := e.exists_tokens_cons
    rw [he] at heq
    exact hk (List.cons.inj heq).1.symm
  cases value <;> cases value' <;> simp only [Statement.tokens, List.cons_append, List.append_assoc,
    List.nil_append, List.cons.injEq, true_and] at h
  · exact ⟨rfl, h⟩
  · exact absurd h hsemicolon
  · exact absurd h.symm hsemicolon
  · obtain ⟨rfl, rfl⟩ := Expression.tokens_append_symbol_inj (by simp) h
    exact ⟨rfl, rfl⟩

mutual

theorem Statement.tokens_append_inj : ∀ (st st' : Statement) {r r' : List Kind},
    st.tokens ++ r = st'.tokens ++ r' → r.head? ≠ some (.keyword .elseKeyword) →
      r'.head? ≠ some (.keyword .elseKeyword) → st = st' ∧ r = r'
  | .assign name value, st', r, r', h, hr, hr' => by
    cases st' with
    | assign name' value' =>
      simp only [Statement.tokens, List.cons_append, List.append_assoc, List.cons.injEq, true_and,
        Kind.identifier.injEq] at h
      obtain ⟨rfl, h⟩ := h
      obtain ⟨rfl, rfl⟩ := Expression.tokens_append_symbol_inj (by simp) h
      exact ⟨rfl, rfl⟩
    | giveBack value => cases value <;> simp [Statement.tokens] at h
    | _ => simp [Statement.tokens] at h
  | .assignElement array index value, st', r, r', h, hr, hr' => by
    cases st' with
    | assignElement array' index' value' =>
      simp only [Statement.tokens, List.cons_append, List.append_assoc, List.cons.injEq, true_and,
        Kind.identifier.injEq] at h
      obtain ⟨rfl, h⟩ := h
      obtain ⟨rfl, hvalue⟩ := Expression.tokens_append_symbol_inj (by simp) h
      obtain ⟨rfl, rfl⟩ := Expression.tokens_append_symbol_inj (by simp) (List.cons.inj hvalue).2
      exact ⟨rfl, rfl⟩
    | giveBack value => cases value <;> simp [Statement.tokens] at h
    | _ => simp [Statement.tokens] at h
  | .conditional condition body, st', r, r', h, hr, hr' => by
    cases st' with
    | conditional condition' body' =>
      simp only [Statement.tokens, List.cons_append, List.append_assoc, List.cons.injEq,
        true_and] at h
      obtain ⟨rfl, hbody⟩ := Expression.tokens_append_symbol_inj (by simp) h
      obtain ⟨rfl, rfl⟩ := body.tokens_append_inj body' (List.cons.inj hbody).2
      exact ⟨rfl, rfl⟩
    | alternative condition' body' otherwise' =>
      simp only [Statement.tokens, List.cons_append, List.append_assoc, List.cons.injEq,
        true_and] at h
      obtain ⟨rfl, hbody⟩ := Expression.tokens_append_symbol_inj (by simp) h
      obtain ⟨rfl, rfl⟩ := body.tokens_append_inj body' (List.cons.inj hbody).2
      exact absurd rfl hr
    | giveBack value => cases value <;> simp [Statement.tokens] at h
    | _ => simp [Statement.tokens] at h
  | .alternative condition body otherwise, st', r, r', h, hr, hr' => by
    cases st' with
    | conditional condition' body' =>
      simp only [Statement.tokens, List.cons_append, List.append_assoc, List.cons.injEq,
        true_and] at h
      obtain ⟨rfl, hbody⟩ := Expression.tokens_append_symbol_inj (by simp) h
      obtain ⟨rfl, rfl⟩ := body.tokens_append_inj body' (List.cons.inj hbody).2
      exact absurd rfl hr'
    | alternative condition' body' otherwise' =>
      simp only [Statement.tokens, List.cons_append, List.append_assoc, List.cons.injEq,
        true_and] at h
      obtain ⟨rfl, hbody⟩ := Expression.tokens_append_symbol_inj (by simp) h
      obtain ⟨rfl, helse⟩ := body.tokens_append_inj body' (List.cons.inj hbody).2
      simp only [List.cons.injEq, true_and] at helse
      obtain ⟨rfl, rfl⟩ := otherwise.tokens_append_inj otherwise' helse
      exact ⟨rfl, rfl⟩
    | giveBack value => cases value <;> simp [Statement.tokens] at h
    | _ => simp [Statement.tokens] at h
  | .loop condition body, st', r, r', h, hr, hr' => by
    cases st' with
    | loop condition' body' =>
      simp only [Statement.tokens, List.cons_append, List.append_assoc, List.cons.injEq,
        true_and] at h
      obtain ⟨rfl, hbody⟩ := Expression.tokens_append_symbol_inj (by simp) h
      obtain ⟨rfl, rfl⟩ := body.tokens_append_inj body' (List.cons.inj hbody).2
      exact ⟨rfl, rfl⟩
    | giveBack value => cases value <;> simp [Statement.tokens] at h
    | _ => simp [Statement.tokens] at h
  | .call c, st', r, r', h, hr, hr' => by
    cases st' with
    | call c' =>
      simp only [Statement.tokens, List.cons_append, List.append_assoc, List.cons.injEq,
        true_and] at h
      obtain ⟨rfl, hrest⟩ := c.tokens_append_inj c' h
      exact ⟨rfl, (List.cons.inj hrest).2⟩
    | giveBack value => cases value <;> simp [Statement.tokens] at h
    | _ => simp [Statement.tokens] at h
  | .giveBack value, st', r, r', h, hr, hr' => by
    cases st' with
    | giveBack value' =>
      obtain ⟨rfl, rfl⟩ := tokens_giveBack_append_inj h
      exact ⟨rfl, rfl⟩
    | _ => cases value <;> simp [Statement.tokens] at h

theorem Block.tokens_append_inj : ∀ (body body' : Block) {r r' : List Kind},
    body.tokens ++ .symbol '}' :: r = body'.tokens ++ .symbol '}' :: r' → body = body' ∧ r = r'
  | .nil, body', r, r', h => by
    cases body' with
    | nil => exact ⟨rfl, (List.cons.inj h).2⟩
    | cons first rest =>
      obtain ⟨kind, kinds, hfirst⟩ := exists_statement_tokens first
      simp [Block.tokens, hfirst] at h
  | .cons first rest, body', r, r', h => by
    cases body' with
    | nil =>
      obtain ⟨kind, kinds, hfirst⟩ := exists_statement_tokens first
      simp [Block.tokens, hfirst] at h
    | cons first' rest' =>
      rw [Block.tokens, Block.tokens, List.append_assoc, List.append_assoc] at h
      obtain ⟨rfl, hrest⟩ :=
        first.tokens_append_inj first' h (head_of_block rfl) (head_of_block rfl)
      obtain ⟨rfl, rfl⟩ := rest.tokens_append_inj rest' hrest
      exact ⟨rfl, rfl⟩

end

/-! ## Declarations -/

/-- Phrases in a row are told apart if each is, and if what stands behind them does not begin as
one. -/
theorem flatMap_append_inj {α : Type} {f : α → List Kind} (Starts : Kind → Prop)
    (hstarts : ∀ a, ∃ k kinds, f a = k :: kinds ∧ Starts k)
    (hf : ∀ {a a' : α} {r r' : List Kind}, f a ++ r = f a' ++ r' → a = a' ∧ r = r')
    (hr : ∀ k ∈ r.head?, ¬ Starts k) (hr' : ∀ k ∈ r'.head?, ¬ Starts k) :
    ∀ {as as' : List α}, as.flatMap f ++ r = as'.flatMap f ++ r' → as = as' ∧ r = r'
  | [], [], h => ⟨rfl, h⟩
  | [], a' :: as', h => by
    obtain ⟨k, kinds, ha', hk⟩ := hstarts a'
    rw [List.flatMap_cons, ha', List.flatMap_nil, List.nil_append] at h
    exact absurd hk (hr k (by rw [h]; rfl))
  | a :: as, [], h => by
    obtain ⟨k, kinds, ha, hk⟩ := hstarts a
    rw [List.flatMap_cons, ha, List.flatMap_nil, List.nil_append] at h
    exact absurd hk (hr' k (by rw [← h]; rfl))
  | a :: as, a' :: as', h => by
    rw [List.flatMap_cons, List.flatMap_cons, List.append_assoc, List.append_assoc] at h
    obtain ⟨rfl, hrest⟩ := hf h
    obtain ⟨rfl, rfl⟩ := flatMap_append_inj Starts hstarts hf hr hr' hrest
    exact ⟨rfl, rfl⟩

theorem VariableType.token_injective {t t' : VariableType} (h : t.token = t'.token) : t = t' := by
  cases t <;> cases t' <;> simp_all [token]

theorem VariableType.token_ne (t : VariableType) :
    t.token ≠ .keyword .voidKeyword ∧ ∀ c, t.token ≠ .symbol c := by
  cases t <;> simp [token]

theorem returnType_injective {t t' : Option VariableType}
    (h : (t.map (·.token)).getD (.keyword .voidKeyword) =
      (t'.map (·.token)).getD (.keyword .voidKeyword)) : t = t' := by
  cases t with
  | none => cases t' with
    | none => rfl
    | some t' => exact absurd h.symm t'.token_ne.1
  | some t => cases t' with
    | none => exact absurd h t.token_ne.1
    | some t' => exact congrArg some (VariableType.token_injective h)

theorem kindToken_injective {k k' : Subroutine.Kind} (h : kindToken k = kindToken k') : k = k' := by
  cases k <;> cases k' <;> simp_all [kindToken]

theorem Variables.tokens_append_inj {v v' : Variables} (h : v.tokens ++ r = v'.tokens ++ r') :
    v = v' ∧ r = r' := by
  obtain ⟨type, first, others⟩ := v
  obtain ⟨type', first', others'⟩ := v'
  simp only [tokens, List.cons_append, List.append_assoc, List.cons.injEq,
    Kind.identifier.injEq] at h
  obtain ⟨htype, rfl, hothers⟩ := h
  obtain rfl := VariableType.token_injective htype
  obtain ⟨rfl, hrest⟩ := flatMap_append_inj (· = .symbol ',')
    (fun name => ⟨_, _, rfl, rfl⟩) (by simp) (by simp) (by simp) hothers
  exact ⟨rfl, (List.cons.inj hrest).2⟩

theorem Parameter.tokens_append_inj {p p' : Parameter} (h : p.tokens ++ r = p'.tokens ++ r') :
    p = p' ∧ r = r' := by
  obtain ⟨type, name⟩ := p
  obtain ⟨type', name'⟩ := p'
  simp only [tokens, List.cons_append, List.nil_append, List.cons.injEq, Kind.identifier.injEq] at h
  obtain ⟨htype, rfl, rfl⟩ := h
  obtain rfl := VariableType.token_injective htype
  exact ⟨rfl, rfl⟩

theorem parameterTokens_append_inj {ps ps' : List Parameter}
    (h : parameterTokens ps ++ .symbol ')' :: r = parameterTokens ps' ++ .symbol ')' :: r') :
    ps = ps' ∧ r = r' := by
  cases ps with
  | nil => cases ps' with
    | nil => exact ⟨rfl, (List.cons.inj h).2⟩
    | cons p' ps' => exact absurd (List.cons.inj h).1.symm (p'.type.token_ne.2 _)
  | cons p ps => cases ps' with
    | nil => exact absurd (List.cons.inj h).1 (p.type.token_ne.2 _)
    | cons p' ps' =>
      rw [parameterTokens, parameterTokens, List.append_assoc, List.append_assoc] at h
      obtain ⟨rfl, hmore⟩ := Parameter.tokens_append_inj h
      obtain ⟨rfl, hrest⟩ := flatMap_append_inj (· = .symbol ',')
        (fun p => ⟨_, _, rfl, rfl⟩)
        (fun h => Parameter.tokens_append_inj (List.cons.inj h).2)
        (by simp) (by simp) hmore
      exact ⟨rfl, (List.cons.inj hrest).2⟩

theorem SubroutineDeclaration.tokens_append_inj {d d' : SubroutineDeclaration}
    (h : d.tokens ++ r = d'.tokens ++ r') : d = d' ∧ r = r' := by
  obtain ⟨kind, returnType, name, parameters, locals, body⟩ := d
  obtain ⟨kind', returnType', name', parameters', locals', body'⟩ := d'
  simp only [tokens, List.cons_append, List.append_assoc, List.cons.injEq, Kind.identifier.injEq,
    true_and] at h
  obtain ⟨hkind, htype, rfl, hparameters⟩ := h
  obtain rfl := kindToken_injective hkind
  obtain rfl := returnType_injective htype
  obtain ⟨rfl, hlocals⟩ := parameterTokens_append_inj hparameters
  obtain ⟨rfl, hbody⟩ := flatMap_append_inj (· = .keyword .varKeyword)
    (fun v => ⟨_, _, rfl, rfl⟩)
    (fun h => Variables.tokens_append_inj (List.cons.inj h).2)
    (fun k hk hvar => next_ne_var body r (hvar ▸ hk))
    (fun k hk hvar => next_ne_var body' r' (hvar ▸ hk))
    (List.cons.inj hlocals).2
  obtain ⟨rfl, rfl⟩ := body.tokens_append_inj body' hbody
  exact ⟨rfl, rfl⟩

theorem ClassVariables.tokens_append_inj {v v' : ClassVariables}
    (h : v.tokens ++ r = v'.tokens ++ r') : v = v' ∧ r = r' := by
  obtain ⟨ownership, declaration⟩ := v
  obtain ⟨ownership', declaration'⟩ := v'
  simp only [tokens, List.cons_append, List.cons.injEq] at h
  obtain ⟨hownership, hrest⟩ := h
  obtain ⟨rfl, rfl⟩ := Variables.tokens_append_inj hrest
  cases ownership <;> cases ownership' <;> simp_all [Ownership.keyword]

/-- The tokens of a class are those of no other class. -/
theorem ClassDeclaration.tokens_injective {k k' : ClassDeclaration} (h : k.tokens = k'.tokens) :
    k = k' := by
  obtain ⟨name, declarations, subroutines⟩ := k
  obtain ⟨name', declarations', subroutines'⟩ := k'
  simp only [tokens, List.cons_append, List.append_assoc, List.cons.injEq, Kind.identifier.injEq,
    true_and] at h
  obtain ⟨rfl, hdeclarations⟩ := h
  have hend : ∀ ds : List SubroutineDeclaration,
      ∀ k ∈ (ds.flatMap SubroutineDeclaration.tokens ++ [Kind.symbol '}']).head?,
        ¬ classVariableKind? k ≠ none := fun ds k hk hne => by
    have hhead := head_subroutines ds []
    rw [Option.mem_def.1 hk, Option.bind_some] at hhead
    exact hne hhead
  obtain ⟨rfl, hsubroutines⟩ := flatMap_append_inj (classVariableKind? · ≠ none)
    (fun v => ⟨_, _, rfl, by cases v.ownership <;> simp [Ownership.keyword, classVariableKind?]⟩)
    ClassVariables.tokens_append_inj (hend _) (hend _) hdeclarations
  obtain ⟨rfl, -⟩ := flatMap_append_inj (subroutineKind? · ≠ none)
    (fun d => ⟨_, _, rfl, by
      cases d.kind <;> simp [kindToken, subroutineKind?, Subroutine.Kind.ofKeyword?]⟩)
    SubroutineDeclaration.tokens_append_inj (by simp [subroutineKind?]) (by simp [subroutineKind?])
    hsubroutines
  rfl

end Jack.Syntax

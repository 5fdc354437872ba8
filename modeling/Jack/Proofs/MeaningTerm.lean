import Jack.Proofs.Meaning

/-!
# The steps of expressions

A step at an expression, a term or a call leaves goals that mean the same.
-/

namespace Jack.Compiler

open Syntax State
open Token (Kind)

variable {s s' : State} {c : List Instruction}

/-! ## What may follow -/

theorem operator?_eq_some {k : Kind} {op : Operator} :
    operator? k = some op ↔ k = .symbol op.symbol := by
  constructor
  · intro h
    cases k <;> simp only [operator?, reduceCtorEq] at h
    rw [Operator.symbol_of_ofSymbol? h]
  · rintro rfl
    exact Operator.ofSymbol?_symbol op

theorem not_extends_operator (op : Operator) : ¬ Extends (some (.symbol op.symbol)) := by
  cases op <;> simp [Extends, Operator.symbol]

/-- A chain says what ends the expression in front of it. -/
theorem ends_chain {s₁ : State} {chain : Chain} (h : s₁.Takes chain.tokens s') (inName : Bool) :
    s₁.Ends inName ∧ s'.Ends (chain.endsInName false) ↔ s'.Ends (chain.endsInName inName) := by
  cases chain with
  | nil =>
    rw [show s' = s₁ from h]
    simp [Chain.endsInName, Ends]
  | cons link chain =>
    have hn : s₁.next? = some (.symbol link.1.symbol) := h.next?_eq
    simp only [Chain.endsInName, List.foldl_cons, and_iff_right_iff_imp]
    exact fun _ => ends_of_next? hn (not_extends_operator _)

theorem unfolds_expression : Unfolds .expression s c s' ↔ Meaning .expression s c s' := by
  rw [unfolds_of_eq (show step s .expression = .ok ([.term, .operators], s) from rfl)]
  simp only [meanings_cons, meanings_nil, Meaning]
  constructor
  · rintro ⟨_, s₁, _, ⟨t, ht, rfl, he⟩, ⟨_, _, _, ⟨chain, hc, rfl, he', ho⟩, ⟨rfl, rfl⟩, rfl⟩, rfl⟩
    refine ⟨.ofChain (.term t) chain, ?_, ?_, ?_, ho⟩
    · rw [Expression.tokens_ofChain, Expression.mentions_ofChain, Expression.qualifiers_ofChain]
      exact reads_append.2 ⟨s₁, ht, hc⟩
    · rw [Expression.code_ofChain, ht.env_eq, List.append_nil]
      rfl
    · rw [Expression.endsInName_ofChain]
      exact (ends_chain hc.1 _).1 ⟨he, he'⟩
  · rintro ⟨e, he, rfl, hn, ho⟩
    obtain ⟨t, chain, rfl⟩ := e.exists_chain
    rw [Expression.tokens_ofChain, Expression.mentions_ofChain, Expression.qualifiers_ofChain,
      reads_append] at he
    obtain ⟨s₁, ht, hc⟩ := he
    rw [Expression.endsInName_ofChain] at hn
    obtain ⟨hn₁, hn₂⟩ := (ends_chain hc.1 _).2 hn
    refine ⟨_, s₁, _, ⟨t, ht, rfl, hn₁⟩,
      ⟨_, s', [], ⟨chain, hc, rfl, hn₂, ho⟩, ⟨rfl, rfl⟩, rfl⟩, ?_⟩
    rw [Expression.code_ofChain, ht.env_eq, List.append_nil]
    rfl

theorem unfolds_operators : Unfolds .operators s c s' ↔ Meaning .operators s c s' := by
  refine (unfolds_accept operator? []
    (fun op => [.term, .emit [op.instruction], .operators]) ?_).trans ?_
  · simp only [step]
    rcases s.accept? operator? with _ | _ | _ <;> rfl
  constructor
  · rintro (⟨hn, rfl, rfl⟩ | ⟨k, op, s₁, hk, hk', hm⟩)
    · exact ⟨[], reads_nil.2 rfl, rfl, by simp [Ends, Chain.endsInName], hn⟩
    · obtain ⟨_, s₂, _, ⟨t, ht, rfl, he⟩, hm₁, rfl⟩ := hm
      obtain ⟨_, hm₂, rfl⟩ := meanings_emit.1 hm₁
      obtain ⟨chain, hc, rfl, he', ho⟩ := meanings_singleton.1 hm₂
      rw [operator?_eq_some.1 hk] at hk'
      refine ⟨(op, t) :: chain, ?_, ?_, ?_, ho⟩
      · simp only [Chain.tokens, Chain.mentions, Chain.qualifiers, List.flatMap_cons]
        rw [List.cons_append, reads_cons]
        exact ⟨s₁, hk', reads_append.2 ⟨s₂, ht, hc⟩⟩
      · rw [ht.env_eq, hk'.env_eq]
        simp [Chain.code]
      · exact (ends_chain hc.1 _).1 ⟨he, he'⟩
  · rintro ⟨chain, hc, rfl, he, ho⟩
    cases chain with
    | nil =>
      obtain rfl := reads_nil.1 hc
      exact .inl ⟨ho, rfl, rfl⟩
    | cons link chain =>
      obtain ⟨op, t⟩ := link
      simp only [Chain.tokens, Chain.mentions, Chain.qualifiers, List.flatMap_cons] at hc
      rw [List.cons_append, reads_cons] at hc
      obtain ⟨s₁, hk, hc⟩ := hc
      obtain ⟨s₂, ht, hc⟩ := reads_append.1 hc
      obtain ⟨he₁, he₂⟩ := (ends_chain hc.1 _).2 he
      refine .inr ⟨_, op, s₁, operator?_eq_some.2 rfl, hk, ?_⟩
      have hm := Meanings.cons (g := .term) ⟨t, ht, rfl, he₁⟩
        (.emit [op.instruction] (meanings_singleton (g := .operators).2 ⟨chain, hc, rfl, he₂, ho⟩))
      rw [ht.env_eq, hk.env_eq] at hm
      simpa [Chain.code] using hm

theorem unfolds_term_iff : Unfolds .term s c s' ↔
    ∃ t s₁, s.current? = some t ∧ s.drop = .ok s₁ ∧
      ∃ goals s₂, stepTerm s₁ t = .ok (goals, s₂) ∧ Meanings goals s₂ c s' := by
  simp only [Unfolds, step]
  cases s.current? with
  | none => simp
  | some t =>
    simp only [bind_eq_ok, Option.some.injEq]
    grind

theorem meaning_term_of_step {s₁ s₂ : State} {t : Token} {goals : List Goal}
    (hobj : s.env.currentObject = s.env.bindings.this) (hk : s.Takes [t.kind] s₁)
    (h : stepTerm s₁ t = .ok (goals, s₂)) (hm : Meanings goals s₂ c s') :
    Meaning .term s c s' := by
  have henv := hk.env_eq
  obtain ⟨-, -, rfl⟩ := stepTerm_eq_ok h
  have whole : ∀ {t : Term}, t.endsInName = false → s'.Ends t.endsInName := fun h => by
    simp [Ends, h]
  unfold stepTerm at h
  split at h <;> rename_i hkind <;> rw [hkind] at hk
  case h_8 ch =>
    split at h
    · rename_i hch
      subst hch
      simp only [Except.ok.injEq, Prod.mk.injEq, and_true] at h
      subst h
      obtain ⟨_, s₁, _, ⟨e, he, rfl, -, -⟩, hm, rfl⟩ := hm
      obtain ⟨s₂, hk₂, rfl, rfl⟩ := meanings_symbol.1 hm
      refine ⟨.group e, reads_cons.2 ⟨_, hk, reads_snoc.2 ⟨_, he, hk₂⟩⟩, ?_, whole rfl⟩
      simp [Term.code, henv]
    · split at h
      · rename_i hch
        subst hch
        simp only [Except.ok.injEq, Prod.mk.injEq, and_true] at h
        subst h
        obtain ⟨_, s₁, _, ⟨t, ht, rfl, he⟩, hm, rfl⟩ := hm
        obtain ⟨rfl, rfl⟩ := meanings_singleton.1 hm
        exact ⟨.unary .negate t, reads_cons.2 ⟨_, hk, ht⟩,
          by simp [Term.code, UnaryOperator.instruction, henv], he⟩
      · split at h
        · rename_i hch
          subst hch
          simp only [Except.ok.injEq, Prod.mk.injEq, and_true] at h
          subst h
          obtain ⟨_, s₁, _, ⟨t, ht, rfl, he⟩, hm, rfl⟩ := hm
          obtain ⟨rfl, rfl⟩ := meanings_singleton.1 hm
          exact ⟨.unary .complement t, reads_cons.2 ⟨_, hk, ht⟩,
            by simp [Term.code, UnaryOperator.instruction, henv], he⟩
        · simp at h
  case h_9 => simp at h
  all_goals
    simp only [Except.ok.injEq, Prod.mk.injEq, and_true] at h
    subst h
    have hm := meanings_singleton.1 hm
  case h_7 name =>
    obtain ⟨t, kinds, ht, hr, rfl, he⟩ := hm
    exact ⟨t, ht ▸ reads_cons.2 ⟨_, hk, hr⟩, by rw [henv], he⟩
  all_goals obtain ⟨rfl, rfl⟩ := hm
  · exact ⟨.integer _, reads_singleton.2 hk, rfl, whole rfl⟩
  · exact ⟨.string _, reads_singleton.2 hk, rfl, whole rfl⟩
  · exact ⟨.true, reads_singleton.2 hk, rfl, whole rfl⟩
  · exact ⟨.false, reads_singleton.2 hk, rfl, whole rfl⟩
  · exact ⟨.null, reads_singleton.2 hk, rfl, whole rfl⟩
  · exact ⟨.this, reads_singleton.2 hk, by rw [henv, hobj]; rfl, whole rfl⟩

theorem unfolds_term_of_takes {s₁ : State} {k : Kind} (hk : s.Takes [k] s₁)
    (h : ∀ t : Token, t.kind = k →
      ∃ goals, stepTerm s₁ t = .ok (goals, s₁) ∧ Meanings goals s₁ c s') :
    Unfolds .term s c s' := by
  obtain ⟨t, ht, hkind, hd⟩ := takes_singleton.1 hk
  obtain ⟨goals, hs, hm⟩ := h t hkind
  exact unfolds_term_iff.2 ⟨t, s₁, ht, hd, goals, s₁, hs, hm⟩

theorem unfolds_of_meaning_term (hobj : s.env.currentObject = s.env.bindings.this)
    (h : Meaning .term s c s') : Unfolds .term s c s' := by
  obtain ⟨t, ht, rfl, he⟩ := h
  have emits : ∀ {code : List Instruction}, Meanings [.emit code] s' code s' := fun {code} =>
    meanings_singleton.2 ⟨rfl, rfl⟩
  -- A term that begins with a name is left to the goal that reads on behind the name.
  have names : ∀ {name : String} {kinds : List Kind}, t.tokens = .identifier name :: kinds →
      Unfolds .term s (t.code s.env.bindings) s' := by
    intro name kinds hn
    rw [hn, reads_cons] at ht
    obtain ⟨s₁, hk, hr⟩ := ht
    refine unfolds_term_of_takes hk fun tok hkind => ⟨[.named name tok.span], ?_, ?_⟩
    · simp [stepTerm, hkind]
    · exact meanings_singleton.2 ⟨t, kinds, hn, hr, by rw [hk.env_eq], he⟩
  cases t with
  | integer value =>
    refine unfolds_term_of_takes (reads_singleton.1 ht) fun tok hkind =>
      ⟨[.emit [.push .constant value]], by simp [stepTerm, hkind], emits⟩
  | string content =>
    exact unfolds_term_of_takes (reads_singleton.1 ht) fun tok hkind =>
      ⟨[.emit (stringCode content.toList)], by simp [stepTerm, hkind], emits⟩
  | «true» =>
    exact unfolds_term_of_takes (reads_singleton.1 ht) fun tok hkind =>
      ⟨[.emit trueCode], by simp [stepTerm, hkind], emits⟩
  | «false» =>
    exact unfolds_term_of_takes (reads_singleton.1 ht) fun tok hkind =>
      ⟨[.emit zeroCode], by simp [stepTerm, hkind], emits⟩
  | null =>
    exact unfolds_term_of_takes (reads_singleton.1 ht) fun tok hkind =>
      ⟨[.emit zeroCode], by simp [stepTerm, hkind], emits⟩
  | this =>
    have hk := reads_singleton.1 ht
    refine unfolds_term_of_takes hk fun tok hkind =>
      ⟨[.emit [s'.env.currentObject]], by simp [stepTerm, hkind], ?_⟩
    rw [hk.env_eq, hobj]
    exact emits
  | group e =>
    obtain ⟨s₁, hk, ht⟩ := reads_cons.1 ht
    obtain ⟨s₂, he', hk'⟩ := reads_snoc.1 ht
    refine unfolds_term_of_takes hk fun tok hkind =>
      ⟨[.expression, .symbol ')'], by simp [stepTerm, hkind], ?_⟩
    have hn := hk'.next?_eq
    have hm := Meanings.cons (g := .expression)
      ⟨e, he', rfl, ends_of_next? hn (by simp [Extends]), by simp [hn]; rfl⟩ (.symbol hk' .nil)
    rw [hk.env_eq] at hm
    simpa [Term.code] using hm
  | unary op t =>
    obtain ⟨s₁, hk, ht⟩ := reads_cons.1 ht
    have hm := Meanings.cons (g := .term) ⟨t, ht, rfl, he⟩ (.emit [op.instruction] .nil)
    rw [hk.env_eq] at hm
    cases op <;> exact unfolds_term_of_takes hk fun tok hkind =>
      ⟨_, by simp [stepTerm, hkind, UnaryOperator.token]; rfl,
        by simpa [Term.code, UnaryOperator.instruction] using hm⟩
  | «variable» name => exact names rfl
  | element array index => exact names rfl
  | call cl =>
    cases cl with
    | own name args => exact names rfl
    | qualified qualifier name args => exact names rfl

theorem unfolds_term (hobj : s.env.currentObject = s.env.bindings.this) :
    Unfolds .term s c s' ↔ Meaning .term s c s' := by
  refine ⟨fun h => ?_, unfolds_of_meaning_term hobj⟩
  obtain ⟨t, s₁, ht, hd, goals, s₂, hs, hm⟩ := unfolds_term_iff.1 h
  exact meaning_term_of_step hobj (takes_singleton.2 ⟨t, ht, rfl, hd⟩) hs hm

/-! ## Expressions in front of a bracket, a comma or a semicolon -/

/-- No expression goes on with the token. -/
def Closing (k : Option Kind) : Prop := ¬ Extends k ∧ k.bind operator? = none

theorem closing_symbol {ch : Char} (h : ch ∈ [')', ']', ',', ';']) :
    Closing (some (.symbol ch)) := by
  simp only [List.mem_cons, List.not_mem_nil, or_false] at h
  rcases h with rfl | rfl | rfl | rfl <;> exact ⟨by simp [Extends], rfl⟩

theorem meanings_expression {goals : List Goal}
    (hg : ∀ s₁ c, Meanings goals s₁ c s' → Closing s₁.next?) :
    Meanings (.expression :: goals) s c s' ↔ ∃ (e : Expression) (s₁ : State) (c' : List Instruction),
      s.Reads e.tokens e.mentions e.qualifiers s₁ ∧ Meanings goals s₁ c' s' ∧
        c = e.code s.env.bindings ++ c' := by
  constructor
  · rintro ⟨_, s₁, c', ⟨e, he, rfl, -, -⟩, hm, rfl⟩
    exact ⟨e, s₁, c', he, hm, rfl⟩
  · rintro ⟨e, s₁, c', he, hm, rfl⟩
    have hc := hg s₁ c' hm
    exact .cons (g := .expression) ⟨e, he, rfl, fun _ => hc.1, hc.2⟩ hm

theorem closing_of_meanings_symbol {goals : List Goal} {ch : Char}
    (h : ch ∈ [')', ']', ',', ';']) (hm : Meanings (.symbol ch :: goals) s c s') :
    Closing s.next? := by
  obtain ⟨s₁, hk, -⟩ := meanings_symbol.1 hm
  rw [hk.next?_eq]
  exact closing_symbol h

/-- An expression between two symbols, and the code that is left behind it. -/
theorem meanings_enclosed {first last : Char} {code : List Instruction} {goals : List Goal}
    (hlast : last ∈ [')', ']', ',', ';']) :
    Meanings (.symbol first :: .expression :: .symbol last :: .emit code :: goals) s c s' ↔
      ∃ (e : Expression) (s₁ : State) (c' : List Instruction),
        s.Reads (.symbol first :: e.tokens ++ [.symbol last]) e.mentions e.qualifiers s₁ ∧
          Meanings goals s₁ c' s' ∧ c = e.code s.env.bindings ++ code ++ c' := by
  rw [meanings_symbol]
  constructor
  · rintro ⟨s₁, hk, hm⟩
    obtain ⟨e, s₂, _, he, hm₁, rfl⟩ := (meanings_expression
      fun _ _ => closing_of_meanings_symbol hlast).1 hm
    obtain ⟨s₃, hk', hm₂⟩ := meanings_symbol.1 hm₁
    obtain ⟨c', hm₃, rfl⟩ := meanings_emit.1 hm₂
    refine ⟨e, s₃, c', reads_cons.2 ⟨s₁, hk, reads_snoc.2 ⟨s₂, he, hk'⟩⟩, hm₃, ?_⟩
    rw [hk.env_eq, List.append_assoc]
  · rintro ⟨e, s₃, c', hr, hm, rfl⟩
    obtain ⟨s₁, hk, hr⟩ := reads_cons.1 hr
    obtain ⟨s₂, he, hk'⟩ := reads_snoc.1 hr
    refine ⟨s₁, hk, (meanings_expression fun _ _ => closing_of_meanings_symbol hlast).2
      ⟨e, s₂, _, he, .symbol hk' (.emit code hm), ?_⟩⟩
    rw [hk.env_eq, List.append_assoc]

theorem meanings_index {base : Symbol} {goals : List Goal} :
    Meanings (Goal.index base ++ goals) s c s' ↔
      ∃ (e : Expression) (s₁ : State) (c' : List Instruction),
        s.Reads (.symbol '[' :: e.tokens ++ [.symbol ']']) e.mentions e.qualifiers s₁ ∧
          Meanings goals s₁ c' s' ∧
          c = base.push :: e.code s.env.bindings ++ [.command .add] ++ c' := by
  simp only [Goal.index, List.cons_append, List.nil_append, meanings_emit]
  constructor
  · rintro ⟨c₁, hm, rfl⟩
    obtain ⟨e, s₁, c', hr, hm', rfl⟩ := (meanings_enclosed (by simp)).1 hm
    exact ⟨e, s₁, c', hr, hm', rfl⟩
  · rintro ⟨e, s₁, c', hr, hm, rfl⟩
    exact ⟨_, (meanings_enclosed (by simp)).2 ⟨e, s₁, c', hr, hm, rfl⟩, rfl⟩

/-! ## Names -/

theorem meaning_eq_ok {name : String} {span : Span} {symbol : Symbol} :
    s.meaning name span = .ok symbol ↔ s.env.bindings.resolve name = some symbol := by
  rw [Environment.resolve_bindings]
  simp only [State.meaning]
  cases s.env.find? name <;> simp

theorem tokens_eq_identifier {t : Term} {name : String} {kinds : List Kind}
    (h : t.tokens = .identifier name :: kinds) :
    t = .variable name ∧ kinds = [] ∨
      (∃ index, t = .element name index ∧ kinds = .symbol '[' :: index.tokens ++ [.symbol ']']) ∨
      ∃ cl, t = .call cl ∧ cl.tokens = .identifier name :: kinds := by
  cases t with
  | «variable» name' => simp_all [Term.tokens]
  | element array index => simp_all [Term.tokens]
  | call cl => exact .inr (.inr ⟨cl, rfl, h⟩)
  | unary op t => cases op <;> simp [Term.tokens, UnaryOperator.token] at h
  | _ => simp [Term.tokens] at h

/-- A call goes on with a bracket or a dot. -/
theorem next?_of_reads_call {cl : Call} {name : String} {kinds : List Kind}
    (h : cl.tokens = .identifier name :: kinds) (hr : s.Takes kinds s') :
    s.next? = some (.symbol '(') ∨ s.next? = some (.symbol '.') := by
  cases cl with
  | own name' args =>
    simp only [Call.tokens, List.cons_append, List.cons.injEq] at h
    rw [← h.2] at hr
    exact .inl hr.next?_eq
  | qualified qualifier name' args =>
    simp only [Call.tokens, List.cons_append, List.cons.injEq] at h
    rw [← h.2] at hr
    exact .inr hr.next?_eq

theorem unfolds_named {name : String} {span : Span} :
    Unfolds (.named name span) s c s' ↔ Meaning (.named name span) s c s' := by
  constructor
  · rintro ⟨goals, s₁, hs, hm⟩
    simp only [step, at?_eq_true, Bool.or_eq_true] at hs
    split at hs
    · obtain ⟨array, ha, hs⟩ := bind_eq_ok.1 hs
      simp only [pure, Except.pure, Except.ok.injEq, Prod.mk.injEq] at hs
      obtain ⟨rfl, rfl⟩ := hs
      obtain ⟨index, s₁, c', hr, hm₁, rfl⟩ := meanings_index.1 hm
      obtain ⟨rfl, rfl⟩ := meanings_singleton.1 hm₁
      rw [meaning_eq_ok] at ha
      refine ⟨.element name index, _, rfl, reads_mention.2 ⟨array, ha, hr⟩, ?_, by
        simp [Ends, Term.endsInName]⟩
      simp [Term.code, Bindings.read, ha]
    · split at hs
      · simp only [pure, Except.pure, Except.ok.injEq, Prod.mk.injEq] at hs
        obtain ⟨rfl, rfl⟩ := hs
        obtain ⟨cl, kinds, hcl, hr, rfl⟩ := meanings_singleton.1 hm
        exact ⟨.call cl, kinds, hcl, hr, rfl, by simp [Ends, Term.endsInName]⟩
      · rename_i hn hn'
        obtain ⟨value, hv, hs⟩ := bind_eq_ok.1 hs
        simp only [pure, Except.pure, Except.ok.injEq, Prod.mk.injEq] at hs
        obtain ⟨rfl, rfl⟩ := hs
        obtain ⟨rfl, rfl⟩ := meanings_singleton.1 hm
        rw [meaning_eq_ok] at hv
        refine ⟨.variable name, [], rfl, reads_mention.2 ⟨value, hv, reads_nil.2 rfl⟩, ?_, ?_⟩
        · simp [Term.code, Bindings.read, hv]
        · exact fun _ h => h.elim hn fun h => hn' h
  · rintro ⟨t, kinds, ht, hr, rfl, he⟩
    rcases tokens_eq_identifier ht with ⟨rfl, rfl⟩ | ⟨index, rfl, rfl⟩ | ⟨cl, rfl, hcl⟩
    · obtain ⟨value, hv, hr⟩ := reads_mention.1 hr
      obtain rfl := reads_nil.1 hr
      have hn : ¬ Extends s'.next? := he rfl
      simp only [Extends, not_or] at hn
      refine ⟨[.emit [value.push]], s', ?_, meanings_singleton.2 ⟨?_, rfl⟩⟩
      · simp [step, at?_eq_true, hn, meaning_eq_ok.2 hv, bind, Except.bind, pure, Except.pure]
      · simp [Term.code, Bindings.read, hv]
    · obtain ⟨array, ha, hr⟩ := reads_mention.1 hr
      refine ⟨Goal.index array ++ [.emit loadElement], s, ?_, meanings_index.2
        ⟨index, s', _, hr, .emit loadElement .nil, ?_⟩⟩
      · simp [step, at?_eq_true, hr.1.next?_eq, meaning_eq_ok.2 ha, bind, Except.bind, pure,
          Except.pure]
      · simp [Term.code, Bindings.read, ha]
    · refine ⟨[.call name span], s, ?_, meanings_singleton.2 ⟨cl, kinds, hcl, hr, rfl⟩⟩
      rcases next?_of_reads_call hcl hr.1 with hn | hn <;>
        simp [step, at?_eq_true, hn, pure, Except.pure]

/-! ## Calls -/

theorem unfolds_symbol {ch : Char} :
    Unfolds (.symbol ch) s c s' ↔ Meaning (.symbol ch) s c s' := by
  simp only [Unfolds, step, bind_eq_ok, requireSymbol_eq_ok, pure, Except.pure, Except.ok.injEq,
    Prod.mk.injEq]
  constructor
  · rintro ⟨_, _, ⟨s₁, hk, rfl, rfl⟩, rfl, rfl⟩
    exact ⟨rfl, hk⟩
  · rintro ⟨rfl, hk⟩
    exact ⟨_, _, ⟨s', hk, rfl, rfl⟩, rfl, rfl⟩

theorem meanings_closeCall {f : String} {n : Nat} :
    Meanings (Goal.closeCall f n) s c s' ↔ s.Takes [.symbol ')'] s' ∧ c = [.call f n] := by
  simp only [Goal.closeCall, meanings_symbol, meanings_emit, meanings_nil]
  constructor
  · rintro ⟨s₁, hk, _, ⟨rfl, rfl⟩, rfl⟩
    exact ⟨hk, rfl⟩
  · rintro ⟨hk, rfl⟩
    exact ⟨s', hk, [], ⟨rfl, rfl⟩, rfl⟩

/-- An argument and what follows it. -/
theorem meanings_argument {f : String} {n : Nat} :
    Meanings [.expression, .moreArguments f (n + 1)] s c s' ↔
      ∃ (first : Expression) (rest : Arguments),
        s.Reads ((Arguments.cons first rest).tokens ++ [.symbol ')'])
          (Arguments.cons first rest).mentions (Arguments.cons first rest).qualifiers s' ∧
          c = (Arguments.cons first rest).code s.env.bindings ++
            [.call f (n + (Arguments.cons first rest).length)] := by
  have hclose : ∀ s₁ c', Meanings [.moreArguments f (n + 1)] s₁ c' s' → Closing s₁.next? := by
    intro s₁ c' hm
    obtain ⟨rest, hr, -⟩ := meanings_singleton.1 hm
    cases rest with
    | nil => exact hr.1.next?_eq ▸ closing_symbol (by simp)
    | cons e rest => exact hr.1.next?_eq ▸ closing_symbol (by simp)
  rw [meanings_expression hclose]
  simp only [Arguments.tokens_cons, Arguments.mentions, Arguments.qualifiers, List.append_assoc,
    reads_append, Arguments.code, Arguments.length]
  constructor
  · rintro ⟨first, s₁, _, he, hm, rfl⟩
    obtain ⟨rest, hr, rfl⟩ := meanings_singleton.1 hm
    refine ⟨first, rest, ⟨s₁, he, hr⟩, ?_⟩
    rw [he.env_eq, Nat.add_assoc, Nat.add_comm 1]
  · rintro ⟨first, rest, ⟨s₁, he, hr⟩, rfl⟩
    refine ⟨first, s₁, _, he, meanings_singleton.2 ⟨rest, hr, rfl⟩, ?_⟩
    rw [he.env_eq, Nat.add_assoc, Nat.add_comm 1]

theorem unfolds_argumentList {f : String} {n : Nat} :
    Unfolds (.argumentList f n) s c s' ↔ Meaning (.argumentList f n) s c s' := by
  by_cases hn : s.next? = some (.symbol ')')
  · rw [unfolds_of_eq (show step s (.argumentList f n) = .ok (Goal.closeCall f n, s) by
      simp [step, at?_eq_true, hn, pure, Except.pure]), meanings_closeCall]
    constructor
    · rintro ⟨hk, rfl⟩
      exact ⟨.nil, reads_singleton.2 hk, rfl⟩
    · rintro ⟨args, hr, rfl⟩
      cases args with
      | nil => exact ⟨reads_singleton.1 hr, rfl⟩
      | cons first rest =>
        obtain ⟨k, kinds, hk, hne, -⟩ := first.exists_tokens_cons
        rw [Arguments.tokens_cons, hk] at hr
        exact absurd (hr.1.next?_eq.symm.trans hn) (by simpa using hne)
  · rw [unfolds_of_eq (show step s (.argumentList f n) =
      .ok ([.expression, .moreArguments f (n + 1)], s) by
        simp [step, at?_eq_true, hn, pure, Except.pure]), meanings_argument]
    constructor
    · rintro ⟨first, rest, hr, rfl⟩
      exact ⟨.cons first rest, hr, rfl⟩
    · rintro ⟨args, hr, rfl⟩
      cases args with
      | nil => exact absurd hr.1.next?_eq hn
      | cons first rest => exact ⟨first, rest, hr, rfl⟩

theorem unfolds_moreArguments {f : String} {n : Nat} :
    Unfolds (.moreArguments f n) s c s' ↔ Meaning (.moreArguments f n) s c s' := by
  refine (unfolds_accept (isExactly (.symbol ',')) (Goal.closeCall f n)
    (fun _ => [.expression, .moreArguments f (n + 1)]) ?_).trans ?_
  · simp only [step]
    rcases s.accept? (isExactly (.symbol ',')) with _ | _ | _ <;> rfl
  constructor
  · rintro (⟨-, hm⟩ | ⟨k, u, s₁, hk, ht, hm⟩)
    · obtain ⟨hk, rfl⟩ := meanings_closeCall.1 hm
      exact ⟨.nil, reads_singleton.2 hk, rfl⟩
    · obtain ⟨first, rest, hr, rfl⟩ := meanings_argument.1 hm
      rw [isExactly_eq_some.1 hk] at ht
      rw [Arguments.tokens_cons] at hr
      exact ⟨.cons first rest, reads_cons.2 ⟨s₁, ht, hr⟩, by rw [ht.env_eq]⟩
  · rintro ⟨args, hr, rfl⟩
    cases args with
    | nil =>
      have hk := reads_singleton.1 hr
      exact .inl ⟨by rw [hk.next?_eq]; rfl, meanings_closeCall.2 ⟨hk, rfl⟩⟩
    | cons first rest =>
      simp only [Arguments.moreTokens, List.cons_append] at hr
      obtain ⟨s₁, hk, hr⟩ := reads_cons.1 hr
      refine .inr ⟨_, (), s₁, isExactly_eq_some.2 rfl, hk, meanings_argument.2
        ⟨first, rest, by rwa [Arguments.tokens_cons], by rw [hk.env_eq]⟩⟩

theorem unfolds_arguments {f : String} {n : Nat} :
    Unfolds (.arguments f n) s c s' ↔ Meaning (.arguments f n) s c s' := by
  simp only [Unfolds, step, bind_eq_ok, requireSymbol_eq_ok, pure, Except.pure, Except.ok.injEq,
    Prod.mk.injEq]
  constructor
  · rintro ⟨_, _, ⟨s₁, hk, rfl, rfl⟩, hm⟩
    obtain ⟨args, hr, rfl⟩ := meanings_singleton.1 hm
    exact ⟨args, reads_cons.2 ⟨s₁, hk, hr⟩, by rw [hk.env_eq]⟩
  · rintro ⟨args, hr, rfl⟩
    obtain ⟨s₁, hk, hr⟩ := reads_cons.1 hr
    exact ⟨_, _, ⟨s₁, hk, rfl, rfl⟩, meanings_singleton.2 ⟨args, hr, by rw [hk.env_eq]⟩⟩

theorem isPrimitiveType_eq_true {typeName : String} :
    isPrimitiveType typeName = true ↔ typeName ∈ primitiveTypes := by
  simp [isPrimitiveType, primitiveTypes, or_assoc]

theorem unfolds_qualifiedCall {name : String} {span : Span} :
    Unfolds (.qualifiedCall name span) s c s' ↔ Meaning (.qualifiedCall name span) s c s' := by
  simp only [Unfolds, step, bind_eq_ok, Prod.exists, pure, Except.pure, Except.ok.injEq,
    Prod.mk.injEq]
  constructor
  · rintro ⟨_, _, ⟨sub, span', s₁, hn, goals, hq, rfl, rfl⟩, hm⟩
    have hk := requireName_eq_ok.1 ⟨span', hn⟩
    simp only [stepQualified, ← Environment.resolve_bindings] at hq
    split at hq
    · rename_i object ho
      split at hq <;> simp only [Except.ok.injEq, reduceCtorEq] at hq
      rename_i hp
      subst hq
      obtain ⟨c', hm₁, rfl⟩ := meanings_emit.1 hm
      obtain ⟨args, hr, rfl⟩ := meanings_singleton.1 hm₁
      rw [hk.env_eq] at ho
      rw [isPrimitiveType_eq_true] at hp
      refine ⟨sub, args, reads_qualifier.2 ⟨?_, reads_cons.2 ⟨s₁, hk, hr⟩⟩, ?_⟩
      · simpa [Bindings.Qualifies, ho] using hp
      · simp [Call.code, ho, hk.env_eq, Nat.add_comm]
    · rename_i ho
      simp only [Except.ok.injEq] at hq
      subst hq
      obtain ⟨args, hr, rfl⟩ := meanings_singleton.1 hm
      rw [hk.env_eq] at ho
      refine ⟨sub, args, reads_qualifier.2 ⟨?_, reads_cons.2 ⟨s₁, hk, hr⟩⟩, ?_⟩
      · simp [Bindings.Qualifies, ho]
      · simp [Call.code, ho, hk.env_eq]
  · rintro ⟨sub, args, hr, rfl⟩
    obtain ⟨hq, hr⟩ := reads_qualifier.1 hr
    obtain ⟨s₁, hk, hr⟩ := reads_cons.1 hr
    obtain ⟨span', hn⟩ := requireName_eq_ok.2 hk
    have hm := fun f n => meanings_singleton (g := .arguments f n).2 ⟨args, hr, rfl⟩
    cases ho : s.env.bindings.resolve name with
    | some object =>
      have hp : ¬ isPrimitiveType object.typeName = true := by
        rw [isPrimitiveType_eq_true]
        exact hq object ho
      refine ⟨[.emit [object.push], .arguments (object.typeName ++ "." ++ sub) 1], _,
        ⟨sub, span', s₁, hn, _, ?_, rfl, rfl⟩, ?_⟩
      · simp [stepQualified, ← Environment.resolve_bindings, hk.env_eq, ho, hp]
      · rw [hk.env_eq] at hm
        have := Meanings.emit [object.push] (hm (object.typeName ++ "." ++ sub) 1)
        simpa [Call.code, ho, Nat.add_comm] using this
    | none =>
      refine ⟨[.arguments (name ++ "." ++ sub) 0], _,
        ⟨sub, span', s₁, hn, _, ?_, rfl, rfl⟩, ?_⟩
      · simp [stepQualified, ← Environment.resolve_bindings, hk.env_eq, ho]
      · rw [hk.env_eq] at hm
        simpa [Call.code, ho] using hm (name ++ "." ++ sub) 0

theorem unfolds_call {name : String} {span : Span}
    (hobj : s.env.currentObject = s.env.bindings.this) :
    Unfolds (.call name span) s c s' ↔ Meaning (.call name span) s c s' := by
  by_cases hn : s.next? = some (.symbol '(')
  · rw [unfolds_of_eq (show step s (.call name span) =
      .ok ([.emit [s.env.currentObject], .arguments (s.env.qualify name) 1], s) by
        simp [step, at?_eq_true, hn, pure, Except.pure])]
    constructor
    · intro hm
      obtain ⟨c', hm₁, rfl⟩ := meanings_emit.1 hm
      obtain ⟨args, hr, rfl⟩ := meanings_singleton.1 hm₁
      refine ⟨.own name args, _, rfl, hr, ?_⟩
      simp [Call.code, hobj, Environment.qualify, Environment.bindings, Nat.add_comm]
    · rintro ⟨cl, kinds, hcl, hr, rfl⟩
      cases cl with
      | own name' args =>
        simp only [Call.tokens, List.cons_append, List.cons.injEq,
          Token.Kind.identifier.injEq] at hcl
        obtain ⟨rfl, rfl⟩ := hcl
        have hm := Meanings.emit [s.env.currentObject] (meanings_singleton
          (g := .arguments (s.env.qualify name') 1).2 ⟨args, hr, rfl⟩)
        simpa [Call.code, hobj, Environment.qualify, Environment.bindings, Nat.add_comm] using hm
      | qualified qualifier name' args =>
        simp only [Call.tokens, List.cons_append, List.cons.injEq] at hcl
        rw [← hcl.2] at hr
        exact absurd (hr.1.next?_eq.symm.trans hn) (by simp)
  · simp only [Unfolds, step, at?_eq_true, hn, ↓reduceIte, bind_eq_ok, Prod.exists, pure,
      Except.pure, Except.ok.injEq, Prod.mk.injEq, require_eq_ok, isExactly_eq_some]
    constructor
    · rintro ⟨_, _, ⟨_, _, s₁, ⟨t, ht, hkind, rfl, hd⟩, rfl, rfl⟩, hm⟩
      obtain ⟨sub, args, hr, rfl⟩ := meanings_singleton.1 hm
      have hk : s.Takes [.symbol '.'] s₁ := takes_singleton.2 ⟨t, ht, hkind, hd⟩
      exact ⟨.qualified name sub args, _, rfl, reads_cons.2 ⟨s₁, hk, hr⟩, by rw [hk.env_eq]⟩
    · rintro ⟨cl, kinds, hcl, hr, rfl⟩
      cases cl with
      | own name' args =>
        simp only [Call.tokens, List.cons_append, List.cons.injEq] at hcl
        rw [← hcl.2] at hr
        exact absurd hr.1.next?_eq hn
      | qualified qualifier name' args =>
        simp only [Call.tokens, List.cons_append, List.cons.injEq,
          Token.Kind.identifier.injEq] at hcl
        obtain ⟨rfl, rfl⟩ := hcl
        obtain ⟨s₁, hk, hr⟩ := reads_cons.1 hr
        obtain ⟨t, ht, hkind, hd⟩ := takes_singleton.1 hk
        exact ⟨_, _, ⟨(), t.span, s₁, ⟨t, ht, hkind, rfl, hd⟩, rfl, rfl⟩,
          meanings_singleton.2 ⟨name', args, hr, by rw [hk.env_eq]⟩⟩

end Jack.Compiler

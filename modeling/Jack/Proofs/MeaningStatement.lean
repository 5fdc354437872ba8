import Jack.Proofs.MeaningTerm

/-!
# The steps of statements

A step at statements leaves goals that mean the same. Statements count the `if` and `while` in them,
so here the environment moves on (`passes_append`).
-/

namespace Jack.Compiler

open Syntax State
open Token (Kind)

variable {s s' : State} {c : List Instruction}

namespace State

variable {k : Kind} {kinds kinds' : List Kind} {ms ms' qs qs' : List String} {i i' w w' : Nat}

theorem Passes.env_eq (h : s.Passes kinds ms qs i w s') : s'.env = s.env.advance i w := by
  obtain ⟨s₁, -, rfl⟩ := h
  rfl

theorem passes_zero : s.Passes kinds ms qs 0 0 s' ↔ s.Reads kinds ms qs s' := by
  constructor
  · rintro ⟨s₁, h, rfl⟩
    rwa [Environment.advance_zero, ← h.env_eq]
  · intro h
    exact ⟨s', h, by rw [Environment.advance_zero, ← h.env_eq]⟩

/-- The counts may be taken ahead of the tokens. -/
theorem passes_advance :
    Passes { s with env := s.env.advance i w } kinds ms qs i' w' s' ↔
      s.Passes kinds ms qs (i + i') (w + w') s' := by
  simp only [Passes, Reads, takes_withEnv, Environment.bindings_advance,
    Environment.advance_advance]
  constructor
  · rintro ⟨_, ⟨⟨s₁, h, rfl⟩, ha⟩, rfl⟩
    exact ⟨s₁, ⟨h, ha⟩, rfl⟩
  · rintro ⟨s₁, ⟨h, ha⟩, rfl⟩
    exact ⟨_, ⟨⟨s₁, h, rfl⟩, ha⟩, rfl⟩

theorem passes_append :
    s.Passes (kinds ++ kinds') (ms ++ ms') (qs ++ qs') (i + i') (w + w') s' ↔
      ∃ s₁, s.Passes kinds ms qs i w s₁ ∧ s₁.Passes kinds' ms' qs' i' w' s' := by
  constructor
  · rintro ⟨s₂, h, rfl⟩
    obtain ⟨s₁, h₁, h₂⟩ := reads_append.1 h
    refine ⟨_, ⟨s₁, h₁, rfl⟩, ?_⟩
    rw [← h₁.env_eq, passes_advance]
    exact ⟨s₂, h₂, rfl⟩
  · rintro ⟨_, ⟨s₁, h₁, rfl⟩, h₂⟩
    rw [← h₁.env_eq, passes_advance] at h₂
    obtain ⟨s₂, h₂, rfl⟩ := h₂
    exact ⟨s₂, reads_append.2 ⟨s₁, h₁, h₂⟩, by rw [h₁.env_eq]⟩

theorem passes_append_reads :
    s.Passes (kinds ++ kinds') (ms ++ ms') (qs ++ qs') i w s' ↔
      ∃ s₁, s.Reads kinds ms qs s₁ ∧ s₁.Passes kinds' ms' qs' i w s' := by
  have h := @passes_append s s' kinds kinds' ms ms' qs qs' 0 i 0 w
  simpa only [Nat.zero_add, passes_zero] using h

theorem passes_cons : s.Passes (k :: kinds) ms qs i w s' ↔
    ∃ s₁, s.Takes [k] s₁ ∧ s₁.Passes kinds ms qs i w s' := by
  have h := @passes_append_reads s s' [k] kinds [] ms [] qs i w
  simpa only [reads_singleton, List.singleton_append, List.nil_append] using h

theorem passes_snoc : s.Passes (kinds ++ [k]) ms qs i w s' ↔
    ∃ s₁, s.Passes kinds ms qs i w s₁ ∧ s₁.Takes [k] s' := by
  have h := @passes_append s s' kinds [k] ms [] qs [] i 0 w 0
  simpa only [passes_zero, reads_singleton, List.append_nil, Nat.add_zero] using h

end State

/-! ## Conditions and blocks -/

theorem meanings_condition {goals : List Goal} :
    Meanings (Goal.condition ++ goals) s c s' ↔
      ∃ (e : Expression) (s₁ : State) (c' : List Instruction),
        s.Reads (.symbol '(' :: e.tokens ++ [.symbol ')']) e.mentions e.qualifiers s₁ ∧
          Meanings goals s₁ c' s' ∧ c = e.code s.env.bindings ++ [.command .not] ++ c' :=
  meanings_enclosed (by simp)

theorem meanings_block {goals : List Goal} :
    Meanings (Goal.block ++ goals) s c s' ↔
      ∃ (body : Block) (s₁ : State) (c' : List Instruction),
        s.Passes (.symbol '{' :: body.tokens ++ [.symbol '}']) body.mentions body.qualifiers
          body.ifs body.whiles s₁ ∧
          Meanings goals s₁ c' s' ∧
          c = body.code s.env.bindings s.env.ifCount s.env.whileCount ++ c' := by
  simp only [Goal.block, List.cons_append, List.nil_append, meanings_symbol]
  constructor
  · rintro ⟨s₁, hk, _, s₂, _, ⟨body, hb, rfl, -, -⟩, hm, rfl⟩
    obtain ⟨s₃, hk', hm₁⟩ := meanings_symbol.1 hm
    refine ⟨body, s₃, _, passes_cons.2 ⟨s₁, hk, passes_snoc.2 ⟨s₂, hb, hk'⟩⟩, hm₁, ?_⟩
    rw [hk.env_eq]
  · rintro ⟨body, s₃, c', hr, hm, rfl⟩
    obtain ⟨s₁, hk, hr⟩ := passes_cons.1 hr
    obtain ⟨s₂, hb, hk'⟩ := passes_snoc.1 hr
    have hn := hk'.next?_eq
    refine ⟨s₁, hk, ?_⟩
    rw [← hk.env_eq]
    exact .cons (g := .statements)
      ⟨body, hb, rfl, fun _ => by simp [hn], by rw [hn]; rfl⟩ (.symbol hk' hm)

/-! ## Assignments -/

/-- A value, what is done with it, and a semicolon. -/
theorem meanings_value {code : List Instruction} :
    Meanings [.expression, .emit code, .symbol ';'] s c s' ↔ ∃ e : Expression,
      s.Reads (e.tokens ++ [.symbol ';']) e.mentions e.qualifiers s' ∧
        c = e.code s.env.bindings ++ code := by
  have hclose : ∀ s₁ c', Meanings [.emit code, .symbol ';'] s₁ c' s' → Closing s₁.next? := by
    intro s₁ c' hm
    obtain ⟨_, hm₁, -⟩ := meanings_emit.1 hm
    exact closing_of_meanings_symbol (by simp) hm₁
  rw [meanings_expression hclose]
  constructor
  · rintro ⟨e, s₁, _, he, hm, rfl⟩
    obtain ⟨_, hm₁, rfl⟩ := meanings_emit.1 hm
    obtain ⟨rfl, hk⟩ := meanings_singleton.1 hm₁
    exact ⟨e, reads_snoc.2 ⟨s₁, he, hk⟩, by simp⟩
  · rintro ⟨e, hr, rfl⟩
    obtain ⟨s₁, he, hk⟩ := reads_snoc.1 hr
    exact ⟨e, s₁, _, he, .emit code (.symbol hk .nil), by simp⟩

theorem unfolds_assignment {target : Symbol} :
    Unfolds (.assignment target) s c s' ↔ Meaning (.assignment target) s c s' := by
  by_cases hn : s.next? = some (.symbol '[')
  · rw [unfolds_of_eq (show step s (.assignment target) = .ok (Goal.index target ++
      [.symbol '=', .expression, .emit storeElement, .symbol ';'], s) by
        simp [step, at?_eq_true, hn, pure, Except.pure]), meanings_index]
    constructor
    · rintro ⟨index, s₁, _, hr, hm, rfl⟩
      obtain ⟨s₂, hk, hm₁⟩ := meanings_symbol.1 hm
      obtain ⟨value, hv, rfl⟩ := meanings_value.1 hm₁
      refine .inr ⟨index, value, ?_, ?_⟩
      · have := reads_append.2 ⟨s₁, hr, reads_cons.2 ⟨s₂, hk, hv⟩⟩
        simpa using this
      · rw [hk.env_eq, hr.env_eq]
        simp
    · rintro (⟨value, hr, rfl⟩ | ⟨index, value, hr, rfl⟩)
      · exact absurd (hr.1.next?_eq.symm.trans hn) (by simp)
      · have hr' : s.Reads ((.symbol '[' :: index.tokens ++ [.symbol ']']) ++
            (.symbol '=' :: (value.tokens ++ [.symbol ';']))) (index.mentions ++ value.mentions)
            (index.qualifiers ++ value.qualifiers) s' := by simpa using hr
        obtain ⟨s₁, hi, hv⟩ := reads_append.1 hr'
        obtain ⟨s₂, hk, hv⟩ := reads_cons.1 hv
        refine ⟨index, s₁, _, hi, .symbol hk (meanings_value.2 ⟨value, hv, rfl⟩), ?_⟩
        rw [hk.env_eq, hi.env_eq]
        simp
  · rw [unfolds_of_eq (show step s (.assignment target) =
      .ok ([.symbol '=', .expression, .emit [target.pop], .symbol ';'], s) by
        simp [step, at?_eq_true, hn, pure, Except.pure]), meanings_symbol]
    constructor
    · rintro ⟨s₁, hk, hm⟩
      obtain ⟨value, hv, rfl⟩ := meanings_value.1 hm
      exact .inl ⟨value, reads_cons.2 ⟨s₁, hk, hv⟩, by rw [hk.env_eq]⟩
    · rintro (⟨value, hr, rfl⟩ | ⟨index, value, hr, rfl⟩)
      · obtain ⟨s₁, hk, hv⟩ := reads_cons.1 hr
        exact ⟨s₁, hk, meanings_value.2 ⟨value, hv, by rw [hk.env_eq]⟩⟩
      · exact absurd hr.1.next?_eq hn

/-- A declared name in front, as the reader takes it and then looks it up. -/
theorem State.reads_target {expected name : String} {kinds : List Kind} {ms qs : List String} :
    s.Reads (.identifier name :: kinds) (name :: ms) qs s' ↔
      ∃ span s₁ target, s.requireName expected = .ok (name, span, s₁) ∧ s₁.env = s.env ∧
        s.env.bindings.resolve name = some target ∧ s₁.Reads kinds ms qs s' := by
  simp only [reads_mention, reads_cons]
  constructor
  · rintro ⟨target, ht, s₁, hk, hr⟩
    obtain ⟨span, hn⟩ := requireName_eq_ok.2 hk
    exact ⟨span, s₁, target, hn, hk.env_eq, ht, hr⟩
  · rintro ⟨span, s₁, target, hn, -, ht, hr⟩
    exact ⟨target, ht, s₁, requireName_eq_ok.1 ⟨span, hn⟩, hr⟩

theorem unfolds_letTarget : Unfolds .letTarget s c s' ↔ Meaning .letTarget s c s' := by
  simp only [Unfolds, step, bind_eq_ok, Prod.exists, pure, Except.pure, Except.ok.injEq,
    Prod.mk.injEq, meaning_eq_ok]
  constructor
  · rintro ⟨_, _, ⟨name, span, s₁, hn, target, ht, rfl, rfl⟩, hm⟩
    have henv := (requireName_eq_ok.1 ⟨span, hn⟩).env_eq
    rw [henv] at ht
    rcases meanings_singleton.1 hm with ⟨value, hr, rfl⟩ | ⟨index, value, hr, rfl⟩
    · refine ⟨.assign name value, _, rfl, reads_target.2 ⟨span, s₁, target, hn, henv, ht, hr⟩, ?_⟩
      simp [Statement.code, Bindings.write, ht, henv]
    · refine ⟨.assignElement name index value, _, rfl, reads_target.2
        ⟨span, s₁, target, hn, henv, ht, by simpa [Statement.qualifiers] using hr⟩, ?_⟩
      simp [Statement.code, Bindings.read, ht, henv]
  · rintro ⟨st, kinds, hst, hr, rfl⟩
    cases st with
    | assign name value =>
      simp only [Statement.tokens, List.cons_append, List.cons.injEq, true_and] at hst
      subst hst
      obtain ⟨span, s₁, target, hn, henv, ht, hr⟩ := reads_target.1 hr
      refine ⟨_, s₁, ⟨name, span, s₁, hn, target, by rwa [henv], rfl, rfl⟩,
        meanings_singleton.2 (.inl ⟨value, hr, ?_⟩)⟩
      simp [Statement.code, Bindings.write, ht, henv]
    | assignElement name index value =>
      simp only [Statement.tokens, List.cons_append, List.cons.injEq, true_and] at hst
      subst hst
      obtain ⟨span, s₁, target, hn, henv, ht, hr⟩ := reads_target.1 hr
      refine ⟨_, s₁, ⟨name, span, s₁, hn, target, by rwa [henv], rfl, rfl⟩,
        meanings_singleton.2 (.inr ⟨index, value, by simpa [Statement.qualifiers] using hr, ?_⟩)⟩
      simp [Statement.code, Bindings.read, ht, henv]
    | giveBack value => cases value <;> simp [Statement.tokens] at hst
    | _ => simp [Statement.tokens] at hst

/-! ## The statements -/

theorem unfolds_doCall : Unfolds .doCall s c s' ↔ Meaning .doCall s c s' := by
  simp only [Unfolds, step, bind_eq_ok, Prod.exists, pure, Except.pure, Except.ok.injEq,
    Prod.mk.injEq]
  constructor
  · rintro ⟨_, _, ⟨name, span, s₁, hn, rfl, rfl⟩, hm⟩
    have hk := requireName_eq_ok.1 ⟨span, hn⟩
    obtain ⟨cl, kinds, hcl, hr, rfl⟩ := meanings_singleton.1 hm
    exact ⟨cl, hcl ▸ reads_cons.2 ⟨s₁, hk, hr⟩, by rw [hk.env_eq]⟩
  · rintro ⟨cl, hr, rfl⟩
    obtain ⟨name, kinds, hcl⟩ : ∃ name kinds, cl.tokens = .identifier name :: kinds := by
      cases cl <;> exact ⟨_, _, rfl⟩
    rw [hcl] at hr
    obtain ⟨s₁, hk, hr⟩ := reads_cons.1 hr
    obtain ⟨span, hn⟩ := requireName_eq_ok.2 hk
    exact ⟨_, s₁, ⟨name, span, s₁, hn, rfl, rfl⟩,
      meanings_singleton.2 ⟨cl, kinds, hcl, hr, by rw [hk.env_eq]⟩⟩

theorem unfolds_returnValue : Unfolds .returnValue s c s' ↔ Meaning .returnValue s c s' := by
  by_cases hn : s.next? = some (.symbol ';')
  · rw [unfolds_of_eq (show step s .returnValue = .ok ([], s) by
      simp [step, at?_eq_true, hn, pure, Except.pure]), meanings_nil]
    constructor
    · rintro ⟨rfl, rfl⟩
      exact .inl ⟨hn, rfl, rfl⟩
    · rintro (⟨-, rfl, rfl⟩ | ⟨e, he, -⟩)
      · exact ⟨rfl, rfl⟩
      · obtain ⟨k, kinds, hk, -, hne⟩ := e.exists_tokens_cons
        rw [hk] at he
        exact absurd (he.1.next?_eq.symm.trans hn) (by simpa using hne)
  · rw [unfolds_of_eq (show step s .returnValue = .ok ([.expression], s) by
      simp [step, at?_eq_true, hn, pure, Except.pure]), meanings_singleton]
    exact ⟨.inr, fun h => h.resolve_left fun h => hn h.1⟩

theorem unfolds_elseBranch : Unfolds .elseBranch s c s' ↔ Meaning .elseBranch s c s' := by
  refine (unfolds_accept (isExactly (.keyword .elseKeyword)) [] (fun _ => Goal.block) ?_).trans ?_
  · simp only [step]
    rcases s.accept? (isExactly (.keyword .elseKeyword)) with _ | _ | _ <;> rfl
  have hblock : ∀ s₁, Meanings Goal.block s₁ c s' ↔ ∃ body : Block,
      s₁.Passes (.symbol '{' :: body.tokens ++ [.symbol '}']) body.mentions body.qualifiers
        body.ifs body.whiles s' ∧
        c = body.code s₁.env.bindings s₁.env.ifCount s₁.env.whileCount := by
    intro s₁
    have := @meanings_block s₁ s' c []
    rw [List.append_nil] at this
    rw [this]
    simp only [meanings_nil]
    constructor
    · rintro ⟨body, s₂, _, hr, ⟨rfl, rfl⟩, rfl⟩
      exact ⟨body, hr, List.append_nil _⟩
    · rintro ⟨body, hr, rfl⟩
      exact ⟨body, s', [], hr, ⟨rfl, rfl⟩, (List.append_nil _).symm⟩
  constructor
  · rintro (⟨hn, rfl, rfl⟩ | ⟨k, u, s₁, hk, ht, hm⟩)
    · refine .inl ⟨fun h => ?_, rfl, rfl⟩
      simp [h, isExactly] at hn
    · obtain ⟨body, hr, rfl⟩ := (hblock s₁).1 hm
      rw [isExactly_eq_some.1 hk] at ht
      exact .inr ⟨body, passes_cons.2 ⟨s₁, ht, hr⟩, by rw [ht.env_eq]⟩
  · rintro (⟨hn, rfl, rfl⟩ | ⟨body, hr, rfl⟩)
    · refine .inl ⟨?_, rfl, rfl⟩
      rcases h : s'.next? with _ | k
      · rfl
      · simpa [isExactly, h] using hn
    · obtain ⟨s₁, hk, hr⟩ := passes_cons.1 hr
      exact .inr ⟨_, (), s₁, isExactly_eq_some.2 rfl, hk,
        (hblock s₁).2 ⟨body, hr, by rw [hk.env_eq]⟩⟩

/-- A condition, a block and perhaps another. -/
theorem meanings_ifStatement {labels : BranchLabels} :
    Meanings (Goal.ifStatement labels) s c s' ↔
      ∃ (e : Expression) (body : Block) (s₁ : State) (c' : List Instruction),
        s.Passes ((.symbol '(' :: e.tokens ++ [.symbol ')']) ++
            (.symbol '{' :: body.tokens ++ [.symbol '}']))
          (e.mentions ++ body.mentions) (e.qualifiers ++ body.qualifiers) body.ifs body.whiles s₁ ∧
        Meaning .elseBranch s₁ c' s' ∧
        c = ifCode labels (e.code s.env.bindings)
          (body.code s.env.bindings s.env.ifCount s.env.whileCount) c' := by
  rw [show Goal.ifStatement labels = Goal.condition ++ (.emit [.ifGoto labels.otherwise] ::
    (Goal.block ++ [.emit [.goto labels.done, .label labels.otherwise], .elseBranch,
      .emit [.label labels.done]])) from rfl]
  simp only [meanings_condition, passes_append_reads]
  constructor
  · rintro ⟨e, s₁, _, he, hm, rfl⟩
    obtain ⟨_, hm₁, rfl⟩ := meanings_emit.1 hm
    obtain ⟨body, s₂, _, hb, hm₂, rfl⟩ := meanings_block.1 hm₁
    obtain ⟨_, hm₃, rfl⟩ := meanings_emit.1 hm₂
    obtain ⟨c', s₃, _, helse, hm₄, rfl⟩ := meanings_cons.1 hm₃
    obtain ⟨rfl, rfl⟩ := meanings_singleton.1 hm₄
    exact ⟨e, body, s₂, c', ⟨s₁, he, hb⟩, helse, by simp [ifCode, he.env_eq]⟩
  · rintro ⟨e, body, s₂, c', ⟨s₁, he, hb⟩, helse, rfl⟩
    refine ⟨e, s₁, _, he, .emit [.ifGoto labels.otherwise] (meanings_block.2 ⟨body, s₂, _, hb,
      .emit [.goto labels.done, .label labels.otherwise] (.cons (g := .elseBranch) helse
        (.emit [.label labels.done] .nil)), rfl⟩), by simp [ifCode, he.env_eq]⟩

theorem meanings_whileStatement {labels : LoopLabels} :
    Meanings (Goal.whileStatement labels) s c s' ↔
      ∃ (e : Expression) (body : Block),
        s.Passes ((.symbol '(' :: e.tokens ++ [.symbol ')']) ++
            (.symbol '{' :: body.tokens ++ [.symbol '}']))
          (e.mentions ++ body.mentions) (e.qualifiers ++ body.qualifiers) body.ifs body.whiles s' ∧
        c = whileCode labels (e.code s.env.bindings)
          (body.code s.env.bindings s.env.ifCount s.env.whileCount) := by
  rw [show Goal.whileStatement labels = .emit [.label labels.again] :: (Goal.condition ++
    (.emit [.ifGoto labels.done] :: (Goal.block ++
      [.emit [.goto labels.again, .label labels.done]]))) from rfl]
  rw [meanings_emit]
  simp only [meanings_condition, passes_append_reads]
  constructor
  · rintro ⟨_, ⟨e, s₁, _, he, hm, rfl⟩, rfl⟩
    obtain ⟨_, hm₁, rfl⟩ := meanings_emit.1 hm
    obtain ⟨body, s₂, _, hb, hm₂, rfl⟩ := meanings_block.1 hm₁
    obtain ⟨rfl, rfl⟩ := meanings_singleton.1 hm₂
    exact ⟨e, body, ⟨s₁, he, hb⟩, by simp [whileCode, he.env_eq]⟩
  · rintro ⟨e, body, ⟨s₁, he, hb⟩, rfl⟩
    refine ⟨_, ⟨e, s₁, _, he, .emit [.ifGoto labels.done] (meanings_block.2 ⟨body, s', _, hb,
      .emit [.goto labels.again, .label labels.done] .nil, rfl⟩), rfl⟩, ?_⟩
    simp [whileCode, he.env_eq]

def StatementKind.keyword : StatementKind → Keyword
  | letStatement => .letKeyword
  | ifStatement => .ifKeyword
  | whileStatement => .whileKeyword
  | doStatement => .doKeyword
  | returnStatement => .returnKeyword

theorem statementKind?_eq_some {k : Kind} {kind : StatementKind} :
    statementKind? k = some kind ↔ k = .keyword kind.keyword := by
  constructor
  · intro h
    unfold statementKind? at h
    split at h <;> simp only [Option.some.injEq, reduceCtorEq] at h <;> subst h <;> rfl
  · rintro rfl
    cases kind <;> rfl

theorem exists_statement_tokens (st : Statement) :
    ∃ (kind : StatementKind) (kinds : List Kind), st.tokens = .keyword kind.keyword :: kinds := by
  cases st with
  | assign | assignElement => exact ⟨.letStatement, _, rfl⟩
  | conditional | alternative => exact ⟨.ifStatement, _, rfl⟩
  | loop => exact ⟨.whileStatement, _, rfl⟩
  | call => exact ⟨.doStatement, _, rfl⟩
  | giveBack value => cases value <;> exact ⟨.returnStatement, _, rfl⟩

/-- What stands behind the keyword of a statement. -/
def StatementMeaning (kind : StatementKind) (s : State) (c : List Instruction) (s' : State) : Prop :=
  ∃ (st : Statement) (kinds : List Kind), st.tokens = .keyword kind.keyword :: kinds ∧
    s.Passes kinds st.mentions st.qualifiers st.ifs st.whiles s' ∧
      c = st.code s.env.bindings s.env.ifCount s.env.whileCount ∧ s'.Closes st.endsInIf

theorem meaning_letTarget :
    Meaning .letTarget s c s' ↔ StatementMeaning .letStatement s c s' := by
  constructor
  · rintro ⟨st, kinds, hst, hr, rfl⟩
    refine ⟨st, kinds, hst, ?_⟩
    cases st with
    | assign | assignElement => exact ⟨passes_zero.2 hr, rfl, by simp [Closes, Statement.endsInIf]⟩
    | giveBack value => cases value <;> simp [Statement.tokens] at hst
    | _ => simp [Statement.tokens] at hst
  · rintro ⟨st, kinds, hst, hr, rfl, -⟩
    refine ⟨st, kinds, hst, ?_⟩
    cases st with
    | assign | assignElement => exact ⟨passes_zero.1 hr, rfl⟩
    | giveBack value => cases value <;> simp [Statement.tokens, StatementKind.keyword] at hst
    | _ => simp [Statement.tokens, StatementKind.keyword] at hst

theorem meanings_doStatement :
    Meanings [.doCall, .emit [.pop .temp 0], .symbol ';'] s c s' ↔
      StatementMeaning .doStatement s c s' := by
  constructor
  · rintro ⟨_, s₁, _, ⟨cl, hr, rfl⟩, hm, rfl⟩
    obtain ⟨_, hm₁, rfl⟩ := meanings_emit.1 hm
    obtain ⟨rfl, hk⟩ := meanings_singleton.1 hm₁
    exact ⟨.call cl, _, rfl, passes_zero.2 (reads_snoc.2 ⟨s₁, hr, hk⟩), by simp [Statement.code],
      by simp [Closes, Statement.endsInIf]⟩
  · rintro ⟨st, kinds, hst, hr, rfl, -⟩
    cases st with
    | call cl =>
      simp only [Statement.tokens, List.cons_append, List.cons.injEq] at hst
      rw [← hst.2] at hr
      obtain ⟨s₁, hr, hk⟩ := reads_snoc.1 (passes_zero.1 hr)
      exact ⟨_, s₁, _, ⟨cl, hr, rfl⟩, .emit [.pop .temp 0] (.symbol hk .nil), by
        simp [Statement.code]⟩
    | giveBack value => cases value <;> simp [Statement.tokens, StatementKind.keyword] at hst
    | _ => simp [Statement.tokens, StatementKind.keyword] at hst

theorem meanings_returnStatement :
    Meanings [.returnValue, .emit [.command .ret], .symbol ';'] s c s' ↔
      StatementMeaning .returnStatement s c s' := by
  constructor
  · rintro ⟨_, s₁, _, hv, hm, rfl⟩
    obtain ⟨_, hm₁, rfl⟩ := meanings_emit.1 hm
    obtain ⟨rfl, hk⟩ := meanings_singleton.1 hm₁
    rcases hv with ⟨-, rfl, rfl⟩ | ⟨e, he, rfl, -⟩
    · exact ⟨.giveBack none, _, rfl, passes_zero.2 (reads_singleton.2 hk), rfl,
        by simp [Closes, Statement.endsInIf]⟩
    · exact ⟨.giveBack (some e), _, rfl, passes_zero.2 (reads_snoc.2 ⟨s₁, he, hk⟩),
        by simp [Statement.code], by simp [Closes, Statement.endsInIf]⟩
  · rintro ⟨st, kinds, hst, hr, rfl, -⟩
    cases st with
    | giveBack value =>
      cases value with
      | none =>
        simp only [Statement.tokens, List.cons.injEq] at hst
        rw [← hst.2] at hr
        have hk := reads_singleton.1 (passes_zero.1 hr)
        exact .cons (g := .returnValue) (.inl ⟨hk.next?_eq, rfl, rfl⟩)
          (.emit [.command .ret] (.symbol hk .nil))
      | some e =>
        simp only [Statement.tokens, List.cons_append, List.cons.injEq] at hst
        rw [← hst.2] at hr
        obtain ⟨s₁, he, hk⟩ := reads_snoc.1 (passes_zero.1 hr)
        have hn := hk.next?_eq
        refine ⟨_, s₁, _, .inr ⟨e, he, rfl, ?_, ?_⟩, .emit [.command .ret] (.symbol hk .nil), by
          simp [Statement.code]⟩
        · exact ends_of_next? hn (by simp [Extends])
        · rw [hn]
          rfl
    | _ => simp [Statement.tokens, StatementKind.keyword] at hst

theorem meanings_stepStatement (kind : StatementKind) :
    Meanings (stepStatement s kind).1 (stepStatement s kind).2 c s' ↔
      StatementMeaning kind s c s' := by
  cases kind with
  | letStatement => exact meanings_singleton.trans meaning_letTarget
  | doStatement => exact meanings_doStatement
  | returnStatement => exact meanings_returnStatement
  | whileStatement =>
    change Meanings (Goal.whileStatement (.numbered s.env.whileCount))
      { s with env := s.env.advance 0 1 } c s' ↔ _
    simp only [meanings_whileStatement, passes_advance]
    constructor
    · rintro ⟨e, body, hr, rfl⟩
      refine ⟨.loop e body, _, rfl, ?_, rfl, by simp [Closes, Statement.endsInIf]⟩
      simpa [Statement.mentions, Statement.qualifiers, Statement.ifs, Statement.whiles,
        Nat.add_comm] using hr
    · rintro ⟨st, kinds, hst, hr, rfl, -⟩
      cases st with
      | loop e body =>
        simp only [Statement.tokens, List.cons_append, List.cons.injEq] at hst
        refine ⟨e, body, ?_, rfl⟩
        simpa [← hst.2, Statement.mentions, Statement.qualifiers, Statement.ifs, Statement.whiles,
          Nat.add_comm] using hr
      | giveBack value => cases value <;> simp [Statement.tokens, StatementKind.keyword] at hst
      | _ => simp [Statement.tokens, StatementKind.keyword] at hst
  | ifStatement =>
    change Meanings (Goal.ifStatement (.numbered s.env.ifCount))
      { s with env := s.env.advance 1 0 } c s' ↔ _
    simp only [meanings_ifStatement, passes_advance]
    constructor
    · rintro ⟨e, body, s₁, c', hr, helse, rfl⟩
      rcases helse with ⟨hn, rfl, rfl⟩ | ⟨otherwise, ho, rfl⟩
      · refine ⟨.conditional e body, _, rfl, ?_, rfl, fun _ => hn⟩
        simpa [Statement.mentions, Statement.qualifiers, Statement.ifs, Statement.whiles,
          Nat.add_comm] using hr
      · refine ⟨.alternative e body otherwise, _, rfl, ?_, ?_, by simp [Closes, Statement.endsInIf]⟩
        · have hpass := passes_append.2 ⟨s₁, hr, ho⟩
          rw [Nat.add_assoc 1, Nat.add_comm 1] at hpass
          simpa [Statement.mentions, Statement.qualifiers, Statement.ifs, Statement.whiles]
            using hpass
        · rw [hr.env_eq]
          simp [Statement.code, Nat.add_assoc]
    · rintro ⟨st, kinds, hst, hr, rfl, hclose⟩
      cases st with
      | conditional e body =>
        simp only [Statement.tokens, List.cons_append, List.cons.injEq] at hst
        refine ⟨e, body, s', [], ?_, .inl ⟨hclose rfl, rfl, rfl⟩, rfl⟩
        simpa [← hst.2, Statement.mentions, Statement.qualifiers, Statement.ifs, Statement.whiles,
          Nat.add_comm] using hr
      | alternative e body otherwise =>
        simp only [Statement.tokens, List.cons_append, List.cons.injEq] at hst
        have hpass : s.Passes (((.symbol '(' :: e.tokens ++ [.symbol ')']) ++
            (.symbol '{' :: body.tokens ++ [.symbol '}'])) ++
            (.keyword .elseKeyword :: .symbol '{' :: otherwise.tokens ++ [.symbol '}']))
            ((e.mentions ++ body.mentions) ++ otherwise.mentions)
            ((e.qualifiers ++ body.qualifiers) ++ otherwise.qualifiers)
            ((1 + body.ifs) + otherwise.ifs) ((0 + body.whiles) + otherwise.whiles) s' := by
          rw [Nat.add_assoc 1, Nat.add_comm 1]
          simpa [← hst.2, Statement.mentions, Statement.qualifiers, Statement.ifs,
            Statement.whiles] using hr
        obtain ⟨s₁, hr, ho⟩ := passes_append.1 hpass
        refine ⟨e, body, s₁, _, hr, .inr ⟨otherwise, ho, rfl⟩, ?_⟩
        rw [hr.env_eq]
        simp [Statement.code, Nat.add_assoc]
      | giveBack value => cases value <;> simp [Statement.tokens, StatementKind.keyword] at hst
      | _ => simp [Statement.tokens, StatementKind.keyword] at hst

/-- Statements say what ends the one in front of them. -/
theorem closes_block {s₁ : State} {body : Block} {ms qs : List String} {i w : Nat}
    (h : s₁.Passes body.tokens ms qs i w s') (inIf : Bool) :
    s₁.Closes inIf ∧ s'.Closes (body.endsInIf false) ↔ s'.Closes (body.endsInIf inIf) := by
  cases body with
  | nil =>
    obtain ⟨s₂, hr, rfl⟩ := h
    rw [show s₂ = s₁ from hr.1]
    simp [Block.endsInIf, Closes, next?, current?]
  | cons st body =>
    obtain ⟨kind, kinds, hst⟩ := exists_statement_tokens st
    obtain ⟨s₂, hr, rfl⟩ := h
    have hn : s₁.next? = some (.keyword kind.keyword) := by
      have := hr.1
      rw [Block.tokens, hst] at this
      exact this.next?_eq
    simp only [Block.endsInIf, and_iff_right_iff_imp]
    intro _ _
    rw [hn]
    cases kind <;> simp [StatementKind.keyword]

theorem unfolds_statements : Unfolds .statements s c s' ↔ Meaning .statements s c s' := by
  simp only [Unfolds, step, bind_eq_ok]
  constructor
  · rintro ⟨goals, s₁, ⟨_ | ⟨kind, s₂⟩, ha, hg⟩, hm⟩ <;>
      simp only [pure, Except.pure, Except.ok.injEq, Prod.mk.injEq] at hg <;>
      obtain ⟨rfl, rfl⟩ := hg
    · obtain ⟨rfl, rfl⟩ := meanings_nil.1 hm
      exact ⟨.nil, passes_zero.2 (reads_nil.2 rfl), rfl, by simp [Closes, Block.endsInIf],
        accept?_eq_none.1 ha⟩
    · obtain ⟨k, hk, ht⟩ := accept?_eq_some.1 ha
      obtain ⟨_, s₃, _, hst, hm₁, rfl⟩ := meanings_append.1 hm
      obtain ⟨st, kinds, hkinds, hr, rfl, hc⟩ := (meanings_stepStatement kind).1 hst
      obtain ⟨body, hb, rfl, hc', hn⟩ := meanings_singleton.1 hm₁
      rw [statementKind?_eq_some.1 hk] at ht
      refine ⟨.cons st body, ?_, ?_, (closes_block hb _).1 ⟨hc, hc'⟩, hn⟩
      · exact passes_append.2 ⟨s₃, hkinds ▸ passes_cons.2 ⟨s₂, ht, hr⟩, hb⟩
      · rw [hr.env_eq, ht.env_eq]
        rfl
  · rintro ⟨body, hb, rfl, hc, hn⟩
    cases body with
    | nil =>
      obtain rfl := reads_nil.1 (passes_zero.1 hb)
      exact ⟨[], _, ⟨none, accept?_eq_none.2 hn, rfl⟩, rfl, rfl⟩
    | cons st body =>
      obtain ⟨kind, kinds, hkinds⟩ := exists_statement_tokens st
      obtain ⟨s₃, hst, hb⟩ := passes_append.1 hb
      rw [hkinds] at hst
      obtain ⟨s₂, ht, hr⟩ := passes_cons.1 hst
      obtain ⟨hc₁, hc₂⟩ := (closes_block hb _).2 hc
      refine ⟨_, _, ⟨some (kind, s₂), accept?_eq_some.2
        ⟨_, statementKind?_eq_some.2 rfl, ht⟩, rfl⟩, meanings_append.2
          ⟨_, s₃, _, (meanings_stepStatement kind).2 ⟨st, kinds, hkinds, hr, rfl, hc₁⟩,
            meanings_singleton.2 ⟨body, hb, rfl, hc₂, hn⟩, ?_⟩⟩
      rw [hr.env_eq, ht.env_eq]
      rfl

end Jack.Compiler

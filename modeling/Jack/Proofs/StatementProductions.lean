import Jack.Proofs.TermProductions

/-!
# Productions of statements

The steps of the goals that read statements fit the grammar. Statements are followed by a closing
brace, so what ends with an `if` statement is never followed by an `else` of another one.
-/

namespace Jack.Compiler

open Syntax State Goal
open Token (Kind)

variable {s : State} {p r : List Kind} {goals : List Goal}

/-! ## Parts of statements -/

theorem phrases_condition : Phrases (condition ++ goals) p ↔
    ∃ (e : Expression) (q : List Kind), Phrases goals q ∧
      p = .symbol '(' :: e.tokens ++ .symbol ')' :: q := by
  simp only [condition, List.cons_append, List.nil_append, phrases_symbol]
  simp only [phrases_cons, Phrase]
  constructor
  · rintro ⟨_, ⟨_, _, ⟨e, rfl⟩, ⟨_, _, rfl, ⟨_, _, rfl, hq, rfl⟩, rfl⟩, rfl⟩, rfl⟩
    exact ⟨e, _, hq, by simp⟩
  · rintro ⟨e, q, hq, rfl⟩
    exact ⟨_, ⟨_, _, ⟨e, rfl⟩, ⟨_, _, rfl, ⟨_, _, rfl, hq, rfl⟩, rfl⟩, rfl⟩, by simp⟩

theorem parses_condition (e : Expression) (h : Parses goals p r) :
    Parses (condition ++ goals) (.symbol '(' :: e.tokens ++ .symbol ')' :: p) r :=
  .symbol <| .cons ⟨e, rfl⟩ (closing_symbol (by simp)) <| .symbol <| .emit h

theorem phrases_block : Phrases (block ++ goals) p ↔
    ∃ (body : Block) (q : List Kind), Phrases goals q ∧
      p = .symbol '{' :: body.tokens ++ .symbol '}' :: q := by
  simp only [block, List.cons_append, List.nil_append, phrases_symbol]
  simp only [phrases_cons, Phrase]
  constructor
  · rintro ⟨_, ⟨_, _, ⟨body, rfl⟩, ⟨_, _, rfl, hq, rfl⟩, rfl⟩, rfl⟩
    exact ⟨body, _, hq, by simp⟩
  · rintro ⟨body, q, hq, rfl⟩
    exact ⟨_, ⟨_, _, ⟨body, rfl⟩, ⟨_, _, rfl, hq, rfl⟩, rfl⟩, by simp⟩

theorem parses_block (body : Block) (h : Parses goals p r) :
    Parses (block ++ goals) (.symbol '{' :: body.tokens ++ .symbol '}' :: p) r :=
  .symbol <| .cons ⟨body, rfl⟩ rfl <| .symbol h

theorem fits_elseBranch : Fits s .elseBranch (step s .elseBranch) := by
  refine fits_acceptExactly (fun hn => fits_kept (.ending (.inl rfl) ?_) rfl) fun s₁ ht =>
    fits_taken ht rfl (.behind (by simp [Follow]) ?_ ?_ (by simp [Whole, block]))
  · rintro k p hk (hp | ⟨body, hp⟩) <;> simp_all
  · intro p hp
    rw [← List.append_nil block, phrases_block] at hp
    obtain ⟨body, _, rfl, rfl⟩ := hp
    exact .inr ⟨body, by simp⟩
  · rintro p r (hp | ⟨body, hp⟩) -
    · simp at hp
    · rw [(List.cons.inj hp).2, ← List.append_nil block]
      exact parses_block body rfl

theorem fits_assignment {target : Symbol} :
    Fits s (.assignment target) (step s (.assignment target)) := by
  simp only [step, at?_eq_true]
  split
  case isTrue hn =>
    refine fits_kept ⟨?_, ?_, by simp [Whole, index]⟩ rfl
    · simp only [phrases_index, phrases_symbol]
      simp only [phrases_cons, Phrase]
      rintro _ ⟨i, _, ⟨_, ⟨_, _, ⟨value, rfl⟩, ⟨_, _, rfl, ⟨_, _, rfl, rfl, rfl⟩, rfl⟩, rfl⟩, rfl⟩, rfl⟩
      exact .inr ⟨i, value, by simp⟩
    · rintro p r (⟨value, rfl⟩ | ⟨i, value, rfl⟩) - hr
      · simp [hn] at hr
      · refine ⟨.symbol '[' :: i.tokens ++
          .symbol ']' :: .symbol '=' :: (value.tokens ++ [.symbol ';']), by simp, ?_⟩
        exact parses_index i <| .symbol <| .cons ⟨value, rfl⟩ (closing_symbol (by simp)) <|
          .emit <| .symbol rfl
  case isFalse hn =>
    refine fits_kept ⟨?_, ?_, by simp [Whole]⟩ rfl
    · simp only [phrases_symbol]
      simp only [phrases_cons, Phrase]
      rintro _ ⟨_, ⟨_, _, ⟨value, rfl⟩, ⟨_, _, rfl, ⟨_, _, rfl, rfl, rfl⟩, rfl⟩, rfl⟩, rfl⟩
      exact .inl ⟨value, by simp⟩
    · rintro p r (⟨value, rfl⟩ | ⟨i, value, rfl⟩) - hr
      · exact ⟨_, rfl, .symbol <| .cons ⟨value, rfl⟩ (closing_symbol (by simp)) <|
          .emit <| .symbol rfl⟩
      · exact absurd hr.symm hn

/-- An assignment behind its keyword is a name and what is behind that. -/
theorem phrase_letTarget (target : Symbol) : Phrase .letTarget p ↔
    ∃ (name : String) (q : List Kind), Phrase (.assignment target) q ∧ p = .identifier name :: q := by
  constructor
  · rintro ⟨st, hst⟩
    cases st with
    | assign name value =>
      simp only [Statement.tokens, List.cons_append, List.cons.injEq, true_and] at hst
      exact ⟨name, _, .inl ⟨value, rfl⟩, hst.symm⟩
    | assignElement array index value =>
      simp only [Statement.tokens, List.cons_append, List.cons.injEq, true_and] at hst
      exact ⟨array, _, .inr ⟨index, value, by simp⟩, hst.symm⟩
    | giveBack value => cases value <;> simp [Statement.tokens] at hst
    | _ => simp [Statement.tokens] at hst
  · rintro ⟨name, _, ⟨value, rfl⟩ | ⟨index, value, rfl⟩, rfl⟩
    · exact ⟨.assign name value, by simp [Statement.tokens]⟩
    · exact ⟨.assignElement name index value, by simp [Statement.tokens]⟩

theorem fits_letTarget : Fits s .letTarget (step s .letTarget) := by
  refine fits_requireName (fun hn => bars_of_begins fun p hp => ?_) fun name span s₁ ht =>
    fits_meaning fun target => fits_taken ht rfl
      (.onward (fun h _ => ?_) (fun p => ?_) (fun _ => id) (by simp [Whole]))
  · obtain ⟨name, q, -, rfl⟩ := (phrase_letTarget default).1 hp
    exact ⟨_, _, rfl, hn name⟩
  · simpa using (phrase_letTarget target).1 h
  · simp [phrase_letTarget target]

theorem fits_doCall : Fits s .doCall (step s .doCall) := by
  have begins : ∀ cl : Call, ∃ name q, cl.tokens = .identifier name :: q := by
    rintro (⟨name, args⟩ | ⟨name, sub, args⟩) <;> exact ⟨name, _, rfl⟩
  refine fits_requireName (fun hn => bars_of_begins ?_) fun name span s₁ ht =>
    fits_taken ht rfl (.onward ?_ (by simp [Phrase, eq_comm]) (fun _ => id) (by simp [Whole]))
  · rintro _ ⟨cl, rfl⟩
    obtain ⟨name, q, h⟩ := begins cl
    exact ⟨_, _, h, hn name⟩
  · rintro ⟨cl, hcl⟩
    obtain ⟨name, q, h⟩ := begins cl
    simp [h] at hcl

theorem fits_returnValue : Fits s .returnValue (step s .returnValue) := by
  simp only [step]
  split <;> rename_i hn <;> rw [at?_eq_true] at hn
  · refine fits_kept (.ending (.inl rfl) ?_) rfl
    rintro k p hk (hp | ⟨e, he⟩)
    · simp at hp
    · obtain ⟨k', kinds, he', -, hne⟩ := e.exists_tokens_cons
      rw [he', List.cons.injEq] at he
      rw [hk, he.1] at hn
      exact hne (Option.some.inj hn)
  · refine fits_kept ⟨?_, ?_, by simp [Whole]⟩ rfl
    · simp only [phrases_singleton]
      exact fun p hp => .inr hp
    · rintro p r (rfl | he) hf hr
      · exact absurd (hr.symm.trans hf) hn
      · refine ⟨p, rfl, .singleton he ?_⟩
        rw [show r.head? = _ from hf]
        exact closing_symbol (by simp)

/-! ## Statements -/

theorem phrase_of_ifStatement {labels : BranchLabels} (h : Phrases (ifStatement labels) p) :
    ∃ st : Statement, st.tokens = .keyword .ifKeyword :: p := by
  simp only [ifStatement, List.append_assoc, List.cons_append, List.nil_append, phrases_condition,
    phrases_emit, phrases_block] at h
  simp only [phrases_cons, Phrase] at h
  obtain ⟨e, _, ⟨body, _, ⟨_, _, rfl | ⟨otherwise, rfl⟩, ⟨_, _, rfl, rfl, rfl⟩, rfl⟩, rfl⟩, rfl⟩ := h
  · exact ⟨.conditional e body, by simp [Statement.tokens]⟩
  · exact ⟨.alternative e body otherwise, by simp [Statement.tokens]⟩

theorem phrase_of_whileStatement {labels : LoopLabels} (h : Phrases (whileStatement labels) p) :
    ∃ st : Statement, st.tokens = .keyword .whileKeyword :: p := by
  simp only [whileStatement, List.append_assoc, List.cons_append, List.nil_append,
    phrases_condition, phrases_emit, phrases_block] at h
  obtain ⟨e, _, ⟨body, _, rfl, rfl⟩, rfl⟩ := h
  exact ⟨.loop e body, by simp [Statement.tokens]⟩

theorem phrase_of_stepStatement (kind : StatementKind) (h : Phrases (stepStatement s kind).1 p) :
    ∃ st : Statement, st.tokens = .keyword kind.keyword :: p := by
  cases kind with
  | letStatement => exact phrases_singleton.1 h
  | ifStatement => exact phrase_of_ifStatement h
  | whileStatement => exact phrase_of_whileStatement h
  | doStatement =>
    simp only [stepStatement, phrases_cons, Phrase] at h
    obtain ⟨_, _, ⟨cl, rfl⟩, ⟨_, _, rfl, ⟨_, _, rfl, rfl, rfl⟩, rfl⟩, rfl⟩ := h
    exact ⟨.call cl, by simp [Statement.tokens, StatementKind.keyword]⟩
  | returnStatement =>
    simp only [stepStatement, phrases_cons, Phrase] at h
    obtain ⟨_, _, rfl | ⟨e, rfl⟩, ⟨_, _, rfl, ⟨_, _, rfl, rfl, rfl⟩, rfl⟩, rfl⟩ := h
    · exact ⟨.giveBack none, rfl⟩
    · exact ⟨.giveBack (some e), by simp [Statement.tokens, StatementKind.keyword]⟩

theorem parses_ifStatement {labels : BranchLabels} (e : Expression) (body : Block)
    (h : Phrase .elseBranch p) (hr : r.head? ≠ some (.keyword .elseKeyword)) :
    Parses (ifStatement labels) (.symbol '(' ::
      (e.tokens ++ .symbol ')' :: .symbol '{' :: (body.tokens ++ .symbol '}' :: p))) r := by
  have helse : Parses [.elseBranch, .emit [.label labels.done]] p r :=
    ⟨p, [], h, hr, .emit .nil, by simp⟩
  simp only [ifStatement, List.append_assoc, List.cons_append, List.nil_append]
  exact parses_condition e <| .emit <| parses_block body <| .emit helse

theorem parses_whileStatement {labels : LoopLabels} (e : Expression) (body : Block) :
    Parses (whileStatement labels) (.symbol '(' ::
      (e.tokens ++ .symbol ')' :: .symbol '{' :: (body.tokens ++ [.symbol '}']))) r := by
  simp only [whileStatement, List.append_assoc, List.cons_append, List.nil_append]
  exact .emit <| parses_condition e <| .emit <| parses_block body <| .emit .nil

theorem StatementKind.keyword_injective {kind kind' : StatementKind}
    (h : kind.keyword = kind'.keyword) : kind = kind' := by
  cases kind <;> cases kind' <;> first | rfl | simp [keyword] at h

theorem parses_stepStatement {kind : StatementKind} {st : Statement}
    (hst : st.tokens = .keyword kind.keyword :: p) (hr : r.head? ≠ some (.keyword .elseKeyword)) :
    Parses (stepStatement s kind).1 p r := by
  have hkind : ∀ {kind' : StatementKind} {q : List Kind},
      st.tokens = .keyword kind'.keyword :: q → kind = kind' ∧ p = q := fun hst' => by
    obtain ⟨hk, rfl⟩ := List.cons.inj (hst.symm.trans hst')
    exact ⟨StatementKind.keyword_injective (Kind.keyword.inj hk), rfl⟩
  cases st with
  | assign | assignElement =>
    obtain ⟨rfl, -⟩ := @hkind .letStatement _ rfl
    exact .singleton ⟨_, hst⟩ trivial
  | conditional e body =>
    obtain ⟨rfl, rfl⟩ := @hkind .ifStatement _ rfl
    change Parses (ifStatement _) _ _
    simpa using parses_ifStatement e body (.inl rfl) hr
  | alternative e body otherwise =>
    obtain ⟨rfl, rfl⟩ := @hkind .ifStatement _ rfl
    change Parses (ifStatement _) _ _
    simpa using parses_ifStatement e body (.inr ⟨otherwise, rfl⟩) hr
  | loop e body =>
    obtain ⟨rfl, rfl⟩ := @hkind .whileStatement _ rfl
    change Parses (whileStatement _) _ _
    simpa using parses_whileStatement e body
  | call cl =>
    obtain ⟨rfl, rfl⟩ := @hkind .doStatement _ rfl
    exact .cons ⟨cl, rfl⟩ trivial <| .emit <| .symbol rfl
  | giveBack value =>
    cases value with
    | none =>
      obtain ⟨rfl, rfl⟩ := @hkind .returnStatement _ rfl
      exact .cons (p := []) (.inl rfl) rfl <| .emit <| .symbol rfl
    | some value =>
      obtain ⟨rfl, rfl⟩ := @hkind .returnStatement _ rfl
      exact .cons (.inr ⟨value, rfl⟩) rfl <| .emit <| .symbol rfl

/-- No statement begins with `else`. -/
theorem head_of_block {body : Block} (hr : r.head? = some (.symbol '}')) :
    (body.tokens ++ r).head? ≠ some (.keyword .elseKeyword) := by
  cases body with
  | nil => simp [Block.tokens, hr]
  | cons st body =>
    obtain ⟨kind, kinds, hst⟩ := exists_statement_tokens st
    rw [Block.tokens, hst]
    cases kind <;> simp [StatementKind.keyword]

theorem fits_statements : Fits s .statements (step s .statements) := by
  refine fits_accept (fun hn => fits_kept (.ending ⟨.nil, rfl⟩ ?_) rfl) fun k kind s₁ hk ht =>
    fits_taken ht (stepStatement_weight s₁ kind).2 (.behind ?_ ?_ ?_ ?_)
  · rintro k p hk ⟨_ | ⟨st, body⟩, hp⟩
    · simp [Block.tokens] at hp
    · obtain ⟨kind, kinds, hst⟩ := exists_statement_tokens st
      rw [Block.tokens, hst, List.cons_append, List.cons.injEq] at hp
      rw [hk, hp.1, Option.bind_some, statementKind?_eq_some.2 rfl] at hn
      simp at hn
  · obtain rfl := statementKind?_eq_some.1 hk
    simp [Follow]
  · obtain rfl := statementKind?_eq_some.1 hk
    simp only [phrases_append, phrases_singleton]
    rintro _ ⟨p, _, hp, ⟨body, rfl⟩, rfl⟩
    obtain ⟨st, hst⟩ := phrase_of_stepStatement kind hp
    exact ⟨.cons st body, by rw [Block.tokens, hst]; rfl⟩
  · obtain rfl := statementKind?_eq_some.1 hk
    rintro p r ⟨_ | ⟨st, body⟩, hp⟩ hf
    · simp [Block.tokens] at hp
    · obtain ⟨kind', kinds, hst⟩ := exists_statement_tokens st
      rw [Block.tokens, hst, List.cons_append, List.cons.injEq] at hp
      rw [hp.2]
      exact (parses_stepStatement (hst.trans (by rw [hp.1])) (head_of_block hf)).append
        (.singleton ⟨body, rfl⟩ hf)
  · cases kind <;> simp [ifStatement, whileStatement, condition, block, Whole]

end Jack.Compiler

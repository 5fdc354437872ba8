import Jack.Proofs.Loaded

/-!
# How large the numbers in code get

What a class declares, passes on and quotes takes room in its source. So the numbers in its code are
bounded by the length of the source (`ClassDeclaration.Compiles.fits`), and what was compiled from
sources of a length that a machine word can count is loaded (`exists_load`).
-/

namespace Jack

open Text
open Token (Kind)

namespace Scanner

variable {s s' : Scanner} {t : Token}

/-- The text of a token is taken from what is left. -/
theorem size_add_of_lexeme (h : s.lexeme = (.ok t, s')) :
    s'.size + t.lexeme.toList.length ≤ s.size := by
  simp only [lexeme] at h
  split at h
  · simp at h
  · rename_i cs rest hcut
    obtain ⟨-, happ⟩ := Lexeme.cut?_eq_some hcut
    split at h
    · simp only [Prod.mk.injEq, Except.ok.injEq] at h
      obtain ⟨rfl, rfl⟩ := h
      simp only [size, String.toList_ofList, ← happ, List.length_append]
      omega
    · simp at h

theorem size_add_of_next (h : s.next = (.ok (some t), s')) :
    s'.size + t.lexeme.toList.length ≤ s.size := by
  fun_induction next s with
  | case1 | case2 => simp at h
  | case3 s s₁ hr line pending hp ih =>
    have hblanks : s₁.size ≤ s.size := size_skipBlanks_le s
    have hline : (s₁.enterLine line pending).size < s₁.size :=
      size_enterLine_lt (by simpa [s₁, skipBlanks] using hp)
    have hnext := ih h
    omega
  | case4 s s₁ hr result after hl =>
    cases result with
    | error e => simp [Except.map] at h
    | ok t' =>
      simp only [Except.map, Prod.mk.injEq, Except.ok.injEq, Option.some.injEq] at h
      obtain ⟨rfl, rfl⟩ := h
      exact Nat.le_trans (size_add_of_lexeme hl) (size_skipBlanks_le s)

theorem length_tokens_le (s : Scanner) : s.tokens.tokens.length ≤ s.size := by
  fun_induction tokens s with
  | case1 s t s' h later ih =>
    have ih : later.tokens.length ≤ s'.size := ih
    have hlt := size_lt_of_next h
    simp only [List.length_cons]
    omega
  | case2 | case3 => exact Nat.zero_le _

theorem length_lexeme_le (h : t ∈ s.tokens.tokens) : t.lexeme.toList.length ≤ s.size := by
  fun_induction tokens s with
  | case1 s t' s' hn later ih =>
    have hsize := size_add_of_next hn
    rcases List.mem_cons.1 h with rfl | h
    · omega
    · have := ih h
      omega
  | case2 | case3 => simp at h

/-- A source is as long as its text and the number of its lines. -/
theorem size_ofString_le (text : String) :
    (ofSource (.ofString text)).size ≤ 2 * byteSize text.toList := by
  have hlines : ∀ lines : List (List Char), (∀ line ∈ lines, line ≠ []) →
      (ofSource (.ofLines lines)).size ≤ 2 * byteSize lines.flatten := by
    intro lines hne
    induction lines with
    | nil => simp [ofSource, Source.ofLines, size]
    | cons line lines ih =>
      have ih := ih fun line' h => hne line' (List.mem_cons_of_mem _ h)
      have hpos := List.length_pos_iff.2 (hne line (by simp))
      have hle := length_le_byteSize line
      simp only [ofSource, Source.ofLines, size, List.length_nil, List.map_cons, List.foldr_cons,
        List.flatten_cons, byteSize_append] at ih ⊢
      omega
  have h := hlines (linesEnding (· = '\n') text.toList) fun _ => ne_nil_of_mem_linesEnding _
  rwa [flatten_linesEnding] at h

end Scanner

/-- A string is no longer than its lexeme. -/
theorem Lexeme.length_of_decode {lexeme : List Char} {content : String}
    (h : decode lexeme = .ok (.string content)) : content.toList.length ≤ lexeme.length := by
  unfold decode at h
  split at h
  · simp at h
  · rename_i c rest
    split at h
    · simp only [decodeString] at h
      repeat' split at h
      all_goals simp only [Except.ok.injEq, Kind.string.injEq, reduceCtorEq] at h
      rw [← h, String.toList_ofList, List.length_cons]
      exact Nat.le_succ_of_le (List.takeWhile_prefix _).length_le
    · split at h
      · simp only [decodeNumber] at h
        repeat' split at h
        all_goals simp at h
      · split at h
        · simp at h
        · simp only [decodeWord] at h
          repeat' split at h
          all_goals simp at h

namespace Syntax

variable {k : ClassDeclaration} {d : SubroutineDeclaration} {text : String}

/-! ## Declarations -/

theorem length_flatMap_le {α β γ : Type} {f : α → List β} {g : α → List γ}
    (h : ∀ a, (f a).length ≤ (g a).length) (as : List α) :
    (as.flatMap f).length ≤ (as.flatMap g).length := by
  induction as with
  | nil => exact Nat.le_refl 0
  | cons a as ih =>
    have := h a
    simp only [List.flatMap_cons, List.length_append]
    omega

theorem Variables.length_names_le (v : Variables) : v.names.length ≤ v.tokens.length := by
  have hothers : (v.others.flatMap fun name => [name]).length ≤
      (v.others.flatMap fun name => [Kind.symbol ',', .identifier name]).length :=
    length_flatMap_le (fun _ => by simp) _
  simp only [List.flatMap_singleton'] at hothers
  simp only [names, tokens, List.length_append, List.length_cons, List.length_nil]
  omega

theorem Variables.length_declared_le (v : Variables) (kind : Symbol.Kind) :
    (v.declared kind).length ≤ v.tokens.length := by
  rw [declared, List.length_map]
  exact v.length_names_le

theorem ClassDeclaration.length_declared_le (k : ClassDeclaration) :
    k.declared.length ≤ k.tokens.length := by
  have hle : k.declared.length ≤ (k.declarations.flatMap ClassVariables.tokens).length :=
    length_flatMap_le (fun v => Nat.le_succ_of_le (v.declaration.length_declared_le _)) _
  simp only [tokens, List.length_append, List.length_cons, List.length_nil]
  omega

theorem SubroutineDeclaration.length_locals_le (d : SubroutineDeclaration) :
    (d.locals.flatMap (·.names)).length ≤ d.tokens.length := by
  have hle : (d.locals.flatMap (·.names)).length ≤
      (d.locals.flatMap fun v => .keyword .varKeyword :: v.tokens).length :=
    length_flatMap_le (fun v => Nat.le_succ_of_le v.length_names_le) _
  simp only [tokens, List.length_append, List.length_cons, List.length_nil]
  omega

theorem length_parameters_le (ps : List Parameter) : ps.length ≤ (parameterTokens ps).length := by
  cases ps with
  | nil => exact Nat.le_refl 0
  | cons p ps =>
    have hle : (ps.flatMap fun p => [p]).length ≤
        (ps.flatMap fun p => .symbol ',' :: p.tokens).length :=
      length_flatMap_le (fun _ => by simp) _
    simp only [List.flatMap_singleton'] at hle
    have hfirst : p.tokens.length = 2 := rfl
    simp only [parameterTokens, List.length_append, List.length_cons]
    omega

/-- There is room for the current object of a method among the tokens. -/
theorem SubroutineDeclaration.length_declared_le (d : SubroutineDeclaration) (className : String) :
    (d.implicit className ++ d.declared).length ≤ d.tokens.length := by
  have hparameters := length_parameters_le d.parameters
  have hlocals : (d.locals.flatMap (·.declared .localVar)).length ≤
      (d.locals.flatMap fun v => .keyword .varKeyword :: v.tokens).length :=
    length_flatMap_le (fun v => Nat.le_succ_of_le (v.length_declared_le _)) _
  have himplicit : (d.implicit className).length ≤ 1 := by
    unfold implicit
    split <;> simp
  simp only [declared, tokens, List.length_append, List.length_map, List.length_cons,
    List.length_nil]
  omega

theorem index_le_of_visible (hd : d ∈ k.subroutines) {s : Symbol} (h : s ∈ (bindings k d).visible) :
    s.index ≤ k.tokens.length := by
  rcases List.mem_append.1 h with h | h
  · obtain ⟨e, -, -, -, -, hlt⟩ := mem_symbols h
    have hcount := Nat.lt_of_lt_of_le hlt
      (Nat.le_trans List.countP_le_length (d.length_declared_le k.name))
    have hwithin := (within_of_mem_subroutines hd).length
    omega
  · obtain ⟨e, -, -, -, -, hlt⟩ := mem_symbols h
    exact Nat.le_of_lt (Nat.lt_of_lt_of_le hlt
      (Nat.le_trans List.countP_le_length k.length_declared_le))

/-! ## Code -/

section Computes

variable {b : Bindings} {kinds : List Kind} {i : Instruction} {bound n : Nat}
  (hlegal : ∀ t ∈ kinds, t.Legal) (hconstant : Lexeme.maxConstant < bound)
  (htokens : kinds.length < bound)
  (hstrings : ∀ content, .string content ∈ kinds → content.toList.length < bound)
  (hvisible : ∀ s ∈ b.visible, s.index < bound)

include hlegal hconstant htokens hstrings hvisible

theorem Computes.number_lt (h : Computes b kinds i) (hn : n ∈ i.number?) : n < bound := by
  have hsmall : ∀ n ≤ 2, n < bound := fun n h =>
    Nat.lt_of_le_of_lt (Nat.le_trans h (by decide)) hconstant
  cases h with
  | integer h =>
    obtain rfl := Option.some.inj hn
    exact Nat.lt_of_le_of_lt (hlegal _ h) hconstant
  | flag h =>
    obtain rfl := Option.some.inj hn
    exact hsmall _ (by omega)
  | length h =>
    obtain rfl := Option.some.inj hn
    exact hstrings _ h
  | character h hc =>
    obtain rfl := Option.some.inj hn
    exact Nat.lt_of_le_of_lt (hlegal _ h _ hc) hconstant
  | read h =>
    obtain rfl := Option.some.inj hn
    exact hvisible _ h
  | this =>
    unfold Bindings.this at hn
    split at hn <;> obtain rfl := Option.some.inj hn <;> exact hsmall 0 (by omega)
  | pointer | that =>
    obtain rfl := Option.some.inj hn
    exact hsmall _ (by omega)
  | command h => simp [Instruction.number?] at hn
  | routine r =>
    obtain rfl := Option.some.inj hn
    exact hsmall _ (by cases r <;> decide)
  | call ho hname hc =>
    obtain rfl := Option.some.inj hn
    exact Nat.lt_of_le_of_lt hc htokens

theorem Occurs.number_lt (h : Occurs b kinds i) (hn : n ∈ i.number?) : n < bound := by
  have hzero : 0 < bound := Nat.lt_of_le_of_lt (Nat.zero_le _) hconstant
  cases h with
  | compute h => exact h.number_lt hlegal hconstant htokens hstrings hvisible hn
  | write _ h =>
    obtain rfl := Option.some.inj hn
    exact hvisible _ (Bindings.mem_visible h)
  | temp | popTemp | popThat =>
    obtain rfl := Option.some.inj hn
    exact hzero
  | ret | label h | goto h | ifGoto h => simp [Instruction.number?] at hn

end Computes

variable {text : String}

theorem ClassDeclaration.Compiles.length_tokens_le (h : k.Compiles (.ofString text)) :
    k.tokens.length ≤ 2 * byteSize text.toList := by
  rw [h.tokens, Source.kinds, List.length_map]
  exact Nat.le_trans (Scanner.length_tokens_le _) (Scanner.size_ofString_le text)

theorem ClassDeclaration.Compiles.length_string_le (h : k.Compiles (.ofString text))
    {content : String} (hc : .string content ∈ k.tokens) :
    content.toList.length ≤ 2 * byteSize text.toList := by
  rw [h.tokens, Source.kinds, List.mem_map] at hc
  obtain ⟨t, ht, hkind⟩ := hc
  have hdecode := Scanner.decode_of_mem_tokens ht
  rw [hkind] at hdecode
  exact Nat.le_trans (Lexeme.length_of_decode hdecode)
    (Nat.le_trans (Scanner.length_lexeme_le ht) (Scanner.size_ofString_le text))

/-- No number in the code of a class is too large to be read, unless its source is. -/
theorem ClassDeclaration.Compiles.fits (h : k.Compiles (.ofString text))
    (hsize : 2 * byteSize text.toList < Instruction.indexBound) : ∀ i ∈ k.code, i.Fits := by
  intro i hi n hn
  have htokens := h.length_tokens_le
  have hword : Lexeme.maxConstant < Instruction.indexBound := by decide
  cases k.occurs i hi with
  | @function d hd =>
    obtain rfl := Option.some.inj hn
    have hlocals := d.length_locals_le
    have hwithin := (within_of_mem_subroutines hd).length
    omega
  | fieldCount =>
    obtain rfl := Option.some.inj hn
    exact Nat.lt_of_le_of_lt (Nat.le_trans List.countP_le_length k.length_declared_le) (by omega)
  | receiver | popObject =>
    obtain rfl := Option.some.inj hn
    exact Nat.lt_of_le_of_lt (Nat.zero_le _) hword
  | @body d _ hd hocc =>
    refine hocc.number_lt h.legal hword (by omega) (fun content hc => ?_) (fun s hs => ?_) hn
    · have := h.length_string_le hc
      omega
    · have := index_le_of_visible hd hs
      omega

end Syntax

namespace Machine

open Syntax Instruction

variable {sources : List String} {ks : List ClassDeclaration}

/-- What was compiled from sources of a length that a signed word can count is loaded. -/
theorem exists_load
    (h : List.Forall₂ (fun source k => k.Compiles (.ofString source)) sources ks)
    (hsize : ∀ source ∈ sources, 2 * byteSize source.toList < indexBound) :
    load (listing (ks.flatMap (·.code))) =
      .ok (ofProgram (.ofInstructions (ks.flatMap (·.code)))) := by
  have hsource : ∀ k ∈ ks, ∃ source ∈ sources, k.Compiles (.ofString source) := by
    intro k hk
    obtain ⟨i, hi, rfl⟩ := List.getElem_of_mem hk
    have hi' : i < sources.length := by rwa [h.length_eq]
    exact ⟨_, List.getElem_mem hi', h.get hi' hi⟩
  refine (load_classes fun k hk => ?_).2 ⟨fun k hk => ?_, rfl⟩
  · obtain ⟨source, -, hk⟩ := hsource k hk
    exact ⟨_, hk⟩
  · obtain ⟨source, hs, hk⟩ := hsource k hk
    exact hk.fits (hsize source hs)

end Machine

end Jack

import Jack.Scanner

/-!
# What a token can be

Every token of a source is what its lexeme decodes to (`decode_of_mem_tokens`). So the name of an
identifier is a word of its own: it is not empty, holds neither blanks nor symbols nor quotes, and
is no keyword (`IsName`). A number, and the code of a character in a string, can be loaded as a
constant (`Token.Kind.Legal`).
-/

namespace Jack

open Text

/-- The text is an identifier. -/
def IsName (name : String) : Prop := Lexeme.decode name.toList = .ok (.identifier name)

namespace Lexeme

theorem decodeWord_eq_identifier {word : List Char} {name : String}
    (h : decodeWord word = .ok (.identifier name)) :
    name = String.ofList word ∧ word ≠ [] ∧ (∀ c ∈ word, endsWord c = false) ∧
      Keyword.ofText? name = none := by
  simp only [decodeWord] at h
  split at h
  · simp at h
  · rename_i hw
    split at h
    · simp at h
    · rename_i hk
      simp only [Except.ok.injEq, Token.Kind.identifier.injEq] at h
      simp only [Bool.or_eq_true, List.isEmpty_iff, List.any_eq_true, not_or, not_exists, not_and,
        Bool.not_eq_true] at hw
      exact ⟨h.symm, hw.1, hw.2, h ▸ hk⟩

theorem decode_eq_identifier {lexeme : List Char} {name : String}
    (h : decode lexeme = .ok (.identifier name)) :
    decodeWord lexeme = .ok (.identifier name) := by
  unfold decode at h
  split at h
  · simp at h
  · split at h
    · simp only [decodeString] at h
      repeat' split at h
      all_goals simp at h
    · split at h
      · simp only [decodeNumber] at h
        repeat' split at h
        all_goals simp at h
      · split at h
        · simp at h
        · exact h

end Lexeme

namespace IsName

variable {name : String}

theorem decodeWord (h : IsName name) :
    Lexeme.decodeWord name.toList = .ok (.identifier name) :=
  Lexeme.decode_eq_identifier h

theorem ne_nil (h : IsName name) : name.toList ≠ [] :=
  (Lexeme.decodeWord_eq_identifier h.decodeWord).2.1

theorem endsWord_eq_false (h : IsName name) : ∀ c ∈ name.toList, Lexeme.endsWord c = false :=
  (Lexeme.decodeWord_eq_identifier h.decodeWord).2.2.1

theorem ofText?_eq_none (h : IsName name) : Keyword.ofText? name = none :=
  (Lexeme.decodeWord_eq_identifier h.decodeWord).2.2.2

theorem ne_keyword (h : IsName name) (k : Keyword) : name ≠ k.text := by
  rintro rfl
  simpa using h.ofText?_eq_none

end IsName

/-- A lexeme that decodes to an identifier is the identifier's name. -/
theorem Lexeme.isName_of_decode {lexeme name : String}
    (h : decode lexeme.toList = .ok (.identifier name)) : lexeme = name ∧ IsName name := by
  have hn := (decodeWord_eq_identifier (decode_eq_identifier h)).1
  rw [String.ofList_toList] at hn
  subst hn
  exact ⟨rfl, h⟩

namespace Scanner

theorem decode_of_lexeme {s : Scanner} {t : Token} (h : s.lexeme.1 = .ok t) :
    Lexeme.decode t.lexeme.toList = .ok t.kind := by
  simp only [lexeme] at h
  split at h
  · simp at h
  · split at h <;> simp only [Except.ok.injEq, reduceCtorEq] at h
    rename_i hd
    subst h
    simpa using hd

theorem decode_of_next {s : Scanner} {t : Token} (h : s.next.1 = .ok (some t)) :
    Lexeme.decode t.lexeme.toList = .ok t.kind := by
  fun_induction next s with
  | case1 | case2 => simp at h
  | case3 s s' hr line pending hp ih => exact ih h
  | case4 s s' hr result after hl =>
    refine decode_of_lexeme (s := s') ?_
    rw [hl]
    cases result <;> simp_all [Except.map]

theorem decode_of_mem_tokens {s : Scanner} {t : Token} (h : t ∈ s.tokens.tokens) :
    Lexeme.decode t.lexeme.toList = .ok t.kind := by
  fun_induction tokens s with
  | case1 s t' s' hn later ih =>
    rcases List.mem_cons.1 h with rfl | h
    · exact decode_of_next (by rw [hn])
    · exact ih h
  | case2 | case3 => simp at h

end Scanner

/-- The identifiers of a source are names, and their lexemes are those names. -/
theorem TokenStream.isName_of_mem {source : Source} {t : Token} {name : String}
    (ht : t ∈ (ofSource source).tokens) (h : t.kind = .identifier name) :
    t.lexeme = name ∧ IsName name := by
  have hd := Scanner.decode_of_mem_tokens ht
  rw [h] at hd
  exact Lexeme.isName_of_decode hd

/-! ## Every kind of token -/

/-- What a token can be: its name is a name, its numbers are constants. -/
def Token.Kind.Legal : Token.Kind → Prop
  | .identifier name => IsName name
  | .integer n => n ≤ Lexeme.maxConstant
  | .string content => ∀ c ∈ content.toList, c.toNat ≤ Lexeme.maxConstant
  | .keyword _ | .symbol _ => True

namespace Lexeme

theorem decodeString_legal {rest : List Char} {kind : Token.Kind}
    (h : decodeString rest = .ok kind) : kind.Legal := by
  simp only [decodeString] at h
  split at h
  · simp at h
  · split at h
    · simp at h
    · rename_i hc
      split at h
      · simp only [Except.ok.injEq] at h
        subst h
        intro c hmem
        rw [String.toList_ofList] at hmem
        exact Nat.not_lt.1 fun hlt => hc (List.any_eq_true.2 ⟨c, hmem, by simpa using hlt⟩)
      · simp at h

theorem decodeNumber_legal {digits after : List Char} {kind : Token.Kind}
    (h : decodeNumber digits after = .ok kind) : kind.Legal := by
  simp only [decodeNumber] at h
  split at h
  · simp at h
  · rename_i hle
    split at h
    · simp only [Except.ok.injEq] at h
      subst h
      exact Nat.not_lt.1 hle
    · simp at h

theorem decode_legal {lexeme : List Char} {kind : Token.Kind} (h : decode lexeme = .ok kind) :
    kind.Legal := by
  have hdecode : decode (String.ofList lexeme).toList = .ok kind := by rwa [String.toList_ofList]
  unfold decode at h
  split at h
  · simp at h
  · split at h
    · exact decodeString_legal h
    · split at h
      · exact decodeNumber_legal h
      · split at h
        · simp only [Except.ok.injEq] at h
          subst h
          trivial
        · simp only [decodeWord] at h
          split at h
          · simp at h
          · split at h <;> simp only [Except.ok.injEq] at h <;> subst h
            · trivial
            · exact (isName_of_decode hdecode).2

end Lexeme

theorem TokenStream.legal_of_mem {source : Source} {t : Token} (ht : t ∈ (ofSource source).tokens) :
    t.kind.Legal := Lexeme.decode_legal (Scanner.decode_of_mem_tokens ht)

end Jack

import Jack.Scanner

/-!
# Where tokens stand

A token fills at least one byte of the source, and stands behind the tokens before it
(`TokenStream.pairwise_span`). So its span tells a token from all others
(`TokenStream.index_eq_of_span`).
-/

namespace Jack

open Text

namespace Scanner

variable {s s' : Scanner} {t : Token}

theorem span_of_lexeme (h : s.lexeme = (.ok t, s')) :
    t.span.start = s.offset ∧ t.span.start < t.span.stop ∧ s'.offset = t.span.stop := by
  simp only [lexeme] at h
  split at h
  · simp at h
  · rename_i cs rest hcut
    split at h <;> simp only [Prod.mk.injEq, Except.ok.injEq, reduceCtorEq, false_and] at h
    obtain ⟨rfl, rfl⟩ := h
    have hne := List.length_pos_iff.2 (Lexeme.cut?_eq_some hcut).1
    have hle := length_le_byteSize cs
    exact ⟨rfl, by simp only; omega, rfl⟩

/-- A token stands where the scanner was or behind that, and the scanner goes on behind it. -/
theorem span_of_next (h : s.next = (.ok (some t), s')) :
    s.offset ≤ t.span.start ∧ t.span.start < t.span.stop ∧ s'.offset = t.span.stop := by
  fun_induction next s with
  | case1 | case2 => simp at h
  | case3 s s₁ hr line pending hp ih =>
    obtain ⟨hstart, hspan⟩ := ih h
    exact ⟨Nat.le_trans (Nat.le_add_right _ _) hstart, hspan⟩
  | case4 s s₁ hr result after hl =>
    have hresult : result = .ok t := by
      cases result <;> simp_all [Except.map]
    obtain rfl : after = s' := (Prod.mk.inj h).2
    rw [hresult] at hl
    obtain ⟨hstart, hspan⟩ := span_of_lexeme hl
    exact ⟨hstart ▸ Nat.le_add_right _ _, hspan⟩

theorem offset_le_of_mem_tokens (h : t ∈ s.tokens.tokens) : s.offset ≤ t.span.start := by
  fun_induction tokens s with
  | case1 s t' s' hn later ih =>
    obtain ⟨hstart, hlt, hstop⟩ := span_of_next hn
    rcases List.mem_cons.1 h with rfl | h
    · exact hstart
    · have := ih h
      omega
  | case2 | case3 => simp at h

theorem pairwise_span (s : Scanner) :
    s.tokens.tokens.Pairwise fun t t' => t.span.start < t.span.stop ∧ t.span.stop ≤ t'.span.start := by
  fun_induction tokens s with
  | case1 s t s' hn later ih =>
    obtain ⟨-, hlt, hstop⟩ := span_of_next hn
    exact List.pairwise_cons.2
      ⟨fun t' ht' => ⟨hlt, hstop ▸ offset_le_of_mem_tokens ht'⟩, ih⟩
  | case2 | case3 => simp

end Scanner

namespace TokenStream

variable {source : Source}

theorem pairwise_span (source : Source) : (ofSource source).tokens.Pairwise fun t t' =>
    t.span.start < t.span.stop ∧ t.span.stop ≤ t'.span.start :=
  Scanner.pairwise_span _

/-- No two tokens have the same span. -/
theorem index_eq_of_span {i j : Nat} {t t' : Token} (hi : (ofSource source).tokens[i]? = some t)
    (hj : (ofSource source).tokens[j]? = some t') (h : t.span = t'.span) : i = j := by
  obtain ⟨hin, rfl⟩ := List.getElem?_eq_some_iff.1 hi
  obtain ⟨hjn, rfl⟩ := List.getElem?_eq_some_iff.1 hj
  have hp := List.pairwise_iff_getElem.1 (pairwise_span source)
  rcases Nat.lt_trichotomy i j with hlt | heq | hlt
  · have := hp i j hin hjn hlt
    rw [h] at this
    omega
  · exact heq
  · have := hp j i hjn hin hlt
    rw [h] at this
    omega

end TokenStream

end Jack

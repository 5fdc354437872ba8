import Jack.Proofs.LineByLine

/-!
# Scanning a text piece by piece

A piece without comments and strings that ends where a word would end is scanned on its own
(`scan_append`), and so is a string (`scan_string`).
-/

namespace Jack.WholeText

open Text
open Lexeme (endsWord isSymbol decode maxConstant)

variable {before text : List Char} {c : Char}

/-- What is scanned does not depend on the layout in front. -/
theorem scan_congr (h : skipLayout before = skipLayout text) : scan before = scan text := by
  by_cases hnil : skipLayout text = []
  · rw [scan_of_nil (h.trans hnil), scan_of_nil hnil]
  cases hcut : cut? (skipLayout text) with
  | none => rw [scan_of_unterminated (h ▸ hnil) (h ▸ hcut), scan_of_unterminated hnil hcut]
  | some p =>
    obtain ⟨lexeme, after⟩ := p
    cases hdecode : decode lexeme with
    | error reason => rw [scan_of_rejected (h ▸ hcut) hdecode, scan_of_rejected hcut hdecode]
    | ok kind => rw [scan_of_token (h ▸ hcut) hdecode, scan_of_token hcut hdecode]

theorem skipLayout_of_ne (hc : c ≠ '/') (text : List Char) :
    skipLayout (c :: text) = if isBlank c then skipLayout text else c :: text := by
  refine skipLayout_cons ?_
  rintro ⟨d, tail, h, -⟩
  exact hc (List.cons.inj h).1

/-- No word goes on behind the text. -/
def Separate (before : List Char) : Prop := ∀ c ∈ before.getLast?, endsWord c = true

theorem Separate.of_append {p : List Char} (h : Separate (p ++ before)) : Separate before := by
  intro c hc
  refine h c ?_
  rw [List.getLast?_append, Option.mem_def.1 hc]
  rfl

/-- A word comes to an end in the text. -/
theorem exists_word (hc : endsWord c = false) (hsep : Separate (c :: before)) :
    ∃ word d rest, before = word ++ d :: rest ∧ (∀ d ∈ word, (!endsWord d) = true) ∧
      endsWord d = true := by
  have hsplit := List.takeWhile_append_dropWhile (p := (!endsWord ·)) (l := before)
  have hword : ∀ d ∈ before.takeWhile (!endsWord ·), (!endsWord d) = true :=
    fun d => List.mem_takeWhile_imp
  cases hrest : before.dropWhile (!endsWord ·) with
  | nil =>
    rw [hrest, List.append_nil] at hsplit
    have hall : ∀ d ∈ c :: before, endsWord d = false := by
      rw [List.forall_mem_cons]
      exact ⟨hc, fun d hd => by simpa using hword d (hsplit.symm ▸ hd)⟩
    have hlast := List.getLast?_eq_some_getLast (List.cons_ne_nil c before)
    exact absurd (hsep _ hlast) (by simp [hall _ (List.getLast_mem _)])
  | cons d rest =>
    have hd := List.head?_dropWhile_not (!endsWord ·) before
    rw [hrest] at hd hsplit
    exact ⟨_, d, rest, hsplit.symm, hword, by simpa using hd⟩

/-- The lexeme in front is the same before more text. -/
theorem cut?_append (hquote : c ≠ '"') (hblank : isBlank c = false) (hsep : Separate (c :: before))
    (text : List Char) :
    ∃ lexeme after, c :: before = lexeme ++ after ∧ lexeme ≠ [] ∧
      cut? (c :: before) = some (lexeme, after) ∧
      cut? (c :: before ++ text) = some (lexeme, after ++ text) := by
  by_cases hsymbol : isSymbol c = true
  · exact ⟨[c], before, rfl, by simp, by simp [cut?, hquote, hsymbol],
      by simp [cut?, hquote, hsymbol]⟩
  · have hc : endsWord c = false := by simp_all [endsWord]
    obtain ⟨word, d, rest, rfl, hword, hd⟩ := exists_word hc hsep
    have hspan : ∀ text, (word ++ d :: rest ++ text).takeWhile (!endsWord ·) = word ∧
        (word ++ d :: rest ++ text).dropWhile (!endsWord ·) = d :: rest ++ text := fun text => by
      rw [List.append_assoc]
      exact span_append word (d :: rest ++ text) hword (by simp [hd])
    obtain ⟨htake, hdrop⟩ := hspan text
    obtain ⟨htake', hdrop'⟩ := hspan []
    rw [List.append_nil] at htake' hdrop'
    rw [List.append_nil] at hdrop'
    refine ⟨c :: word, d :: rest, by simp, by simp, ?_, ?_⟩
    · simp only [cut?, if_neg hquote, if_neg hsymbol, htake', hdrop']
    · simp only [cut?, List.cons_append, if_neg hquote, if_neg hsymbol]
      simp only [List.cons_append] at htake hdrop
      rw [htake, hdrop]

/-- A piece without comments and strings is scanned on its own. -/
theorem scan_append {lexemes : List (Token.Kind × List Char)}
    (hplain : ∀ c ∈ before, c ≠ '/' ∧ c ≠ '"') (hsep : Separate before)
    (h : scan before = (lexemes, none)) (text : List Char) :
    scan (before ++ text) = (lexemes ++ (scan text).1, (scan text).2) := by
  induction hn : before.length using Nat.strongRecOn generalizing before lexemes with
  | _ n ih
  cases before with
  | nil =>
    rw [scan_of_nil skipLayout_nil] at h
    obtain rfl := (Prod.mk.inj h).1
    rfl
  | cons c before =>
    obtain ⟨hslash, hquote⟩ := hplain c (by simp)
    have hskip := skipLayout_of_ne hslash before
    have hskip' := skipLayout_of_ne hslash (before ++ text)
    cases hblank : isBlank c with
    | true =>
      rw [hblank, if_pos rfl] at hskip hskip'
      rw [List.cons_append, scan_congr hskip']
      rw [scan_congr hskip] at h
      exact ih before.length (by simp [← hn]) (fun d hd => hplain d (List.mem_cons_of_mem _ hd))
        (Separate.of_append (p := [c]) hsep) h rfl
    | false =>
      rw [hblank, if_neg (by simp)] at hskip hskip'
      obtain ⟨lexeme, after, hsplit, hne, hcut, hcut'⟩ := cut?_append hquote hblank hsep text
      rw [← hskip] at hcut
      cases hdecode : decode lexeme with
      | error reason =>
        rw [scan_of_rejected hcut hdecode] at h
        simp at h
      | ok kind =>
        rw [scan_of_token hcut hdecode, Prod.mk.injEq] at h
        obtain ⟨rfl, hafter⟩ := h
        have hlength : after.length < n := by
          rw [← hn, hsplit, List.length_append]
          exact Nat.lt_add_of_pos_left (List.length_pos_iff.2 hne)
        have hlater := ih after.length hlength
          (fun d hd => hplain d (hsplit ▸ List.mem_append_right _ hd))
          (Separate.of_append (hsplit ▸ hsep)) (Prod.ext rfl hafter) rfl
        rw [List.cons_append] at hcut' ⊢
        rw [← hskip'] at hcut'
        rw [scan_of_token hcut' hdecode, hlater]
        rfl

/-- A string is scanned on its own. -/
theorem scan_string {content : List Char}
    (h : ∀ c ∈ content, c ≠ '"' ∧ c ≠ '\n' ∧ c.toNat ≤ maxConstant) (text : List Char) :
    scan ('"' :: content ++ '"' :: text) =
      ((.string (String.ofList content), '"' :: content ++ ['"']) :: (scan text).1,
        (scan text).2) := by
  have hinside : ∀ c ∈ content, (decide (c ≠ '"') && decide (c ≠ '\n')) = true := fun c hc => by
    simp [h c hc]
  obtain ⟨htake, hdrop⟩ := span_append content ('"' :: text) hinside (by simp)
  obtain ⟨htake', hdrop'⟩ := span_append (p := (· ≠ '"')) content ['"']
    (fun c hc => by simp [h c hc]) (by simp)
  have hcut : cut? (skipLayout ('"' :: content ++ '"' :: text)) =
      some ('"' :: content ++ ['"'], text) := by
    rw [List.cons_append, skipLayout_of_ne (by decide), if_neg (by decide)]
    simp only [cut?, if_pos, htake, hdrop]
  refine scan_of_token hcut ?_
  have hany : content.any (maxConstant < ·.toNat) = false := by
    simp only [List.any_eq_false, decide_eq_true_eq, Nat.not_lt]
    exact fun c hc => (h c hc).2.2
  simp only [List.cons_append, decode, if_pos, Lexeme.decodeString, htake', hdrop', hany]
  simp

end Jack.WholeText

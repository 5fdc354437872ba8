import Jack.Scanner
import Jack.Scanner.WholeText
import Mathlib.Data.List.TakeWhile

/-!
# Scanning line by line

The scanner reads a line, blanks its comments, and cuts what is left of it. Where it stands, the
text still to be scanned is the rest of the line with its comments and the lines behind it; a block
comment that is open at the beginning of a line has its end somewhere in that text (`Stands`).
Skipping blanks of the blanked line skips the layout of the text (`skip_blank`), and the lexeme cut
from the blanked line is the one in front of the text (`sameCut_blank`). So a scanner gives the tokens
that the text has as a whole, and fails just where and as the text does (`scan_line_by_line`).
-/

namespace Jack

open Text Comment WholeText
open Lexeme (isSymbol endsWord decode)

/-! ## Lines -/

/-- What is left of a line from some place in it, before later lines: it ends with a newline, or
there are no later lines. -/
def MidLine (later : List Char) : List Char → Prop
  | [] => later = []
  | c :: rest => if c = '\n' then rest = [] else MidLine later rest

section MidLine

variable {later rest line : List Char} {c : Char}

theorem midLine_cons (hc : c ≠ '\n') : MidLine later (c :: rest) ↔ MidLine later rest := by
  rw [MidLine, if_neg hc]

/-- A newline is the last character of the line, and without one it is the last line. -/
theorem MidLine.split (h : MidLine later line) :
    ∃ body, '\n' ∉ body ∧ (line = body ++ ['\n'] ∨ line = body ∧ later = []) := by
  induction line with
  | nil => exact ⟨[], List.not_mem_nil, .inr ⟨rfl, h⟩⟩
  | cons c rest ih =>
    by_cases hc : c = '\n'
    · rw [MidLine, if_pos hc] at h
      subst hc h
      exact ⟨[], List.not_mem_nil, .inl rfl⟩
    · rw [midLine_cons hc] at h
      obtain ⟨body, hbody, hline⟩ := ih h
      refine ⟨c :: body, ?_, ?_⟩
      · rw [List.mem_cons, not_or]
        exact ⟨Ne.symm hc, hbody⟩
      · rcases hline with rfl | ⟨rfl, hlater⟩
        · exact .inl rfl
        · exact .inr ⟨rfl, hlater⟩

theorem MidLine.tail (h : MidLine later (c :: rest)) : rest = [] ∨ MidLine later rest := by
  by_cases hc : c = '\n'
  · rw [MidLine, if_pos hc] at h
    exact .inl h
  · exact .inr ((midLine_cons hc).1 h)

theorem MidLine.not_mem {part : List Char} (h : MidLine later (part ++ c :: rest)) :
    '\n' ∉ part := by
  induction part with
  | nil => exact List.not_mem_nil
  | cons d part ih =>
    by_cases hd : d = '\n'
    · rw [List.cons_append, MidLine, if_pos hd] at h
      simp at h
    · rw [List.cons_append, midLine_cons hd] at h
      rw [List.mem_cons, not_or]
      exact ⟨Ne.symm hd, ih h⟩

/-- Behind a part without newline one is still in the line. -/
theorem midLine_append {part : List Char} (hpart : '\n' ∉ part) :
    MidLine later (part ++ rest) ↔ MidLine later rest := by
  induction part with
  | nil => rfl
  | cons c part ih =>
    rw [List.mem_cons, not_or] at hpart
    rw [List.cons_append, midLine_cons (Ne.symm hpart.1), ih hpart.2]

end MidLine

theorem linesEnding_eq_cons {text line : List Char} {lines : List (List Char)}
    (h : linesEnding (· = '\n') text = line :: lines) :
    ∃ later, text = line ++ later ∧ lines = linesEnding (· = '\n') later ∧ MidLine later line := by
  induction text generalizing line lines with
  | nil => simp [linesEnding] at h
  | cons c text ih =>
    unfold linesEnding at h ih
    rw [List.foldr_cons] at h
    split at h
    · rename_i hc
      obtain ⟨rfl, rfl⟩ := List.cons.inj h
      exact ⟨text, rfl, rfl, by rw [MidLine, if_pos (of_decide_eq_true hc)]⟩
    · rename_i hc
      have hc : c ≠ '\n' := by simpa using hc
      split at h <;> rename_i hlines <;> obtain ⟨rfl, rfl⟩ := List.cons.inj h
      · have htext := flatten_linesEnding (· = '\n') text
        rw [linesEnding, hlines] at htext
        subst htext
        exact ⟨[], rfl, rfl, (midLine_cons hc).2 rfl⟩
      · obtain ⟨later, rfl, hrest, hline⟩ := ih hlines
        exact ⟨later, rfl, hrest, (midLine_cons hc).2 hline⟩

/-! ## Layout -/

/-- A comment begins here. -/
def StartsComment (text : List Char) : Prop :=
  ∃ c rest, text = '/' :: c :: rest ∧ (c = '/' ∨ c = '*')

/-- What is still to be scanned of a text at whose beginning a block comment may be open. -/
def ahead : Zone → List Char → List Char
  | .block, text => afterBlock text
  | .code, text | .string, text => text

/-- The zone of the next line. -/
def zoneAfter (inComment : Bool) : Zone := if inComment then .block else .code

section Layout

variable {later line rest text : List Char} {c : Char}

theorem startsComment_append (h : MidLine later line) :
    StartsComment (line ++ later) ↔ StartsComment line := by
  unfold StartsComment
  rcases line with _ | ⟨c, _ | ⟨d, rest⟩⟩
  · obtain rfl : later = [] := h
    rfl
  · by_cases hc : c = '\n'
    · simp [hc]
    · obtain rfl : later = [] := (midLine_cons hc).1 h
      rfl
  · simp

theorem blank_code_cons (h : ¬ StartsComment (c :: rest)) :
    blank .code (c :: rest) = (c :: (blank (if c = '"' then .string else .code) rest).1,
      (blank (if c = '"' then .string else .code) rest).2) := by
  rw [blank]
  · rintro tail rfl rfl
    exact h ⟨_, _, rfl, .inl rfl⟩
  · rintro tail rfl rfl
    exact h ⟨_, _, rfl, .inr rfl⟩

theorem skipLayout_nil : skipLayout [] = [] := by
  rw [skipLayout.eq_def]

theorem skipLayout_line (text : List Char) :
    skipLayout ('/' :: '/' :: text) = skipLayout (afterLine text) := by
  rw [skipLayout.eq_def]
  rfl

theorem skipLayout_block (text : List Char) :
    skipLayout ('/' :: '*' :: text) = skipLayout (afterBlock text) := by
  rw [skipLayout.eq_def]
  rfl

theorem skipLayout_cons (h : ¬ StartsComment (c :: text)) :
    skipLayout (c :: text) = if isBlank c then skipLayout text else c :: text := by
  rw [skipLayout.eq_def]
  split
  · contradiction
  · rename_i heq
    exact absurd ⟨_, _, heq, .inl rfl⟩ h
  · rename_i heq
    exact absurd ⟨_, _, heq, .inr rfl⟩ h
  · rename_i heq
    obtain ⟨rfl, rfl⟩ := List.cons.inj heq
    rfl

theorem trimStart_spaces (n : Nat) (text : List Char) :
    trimStart (spaces n ++ text) = trimStart text := by
  induction n with
  | zero => rfl
  | succ n ih =>
    rw [spaces, List.replicate_succ, List.cons_append, trimStart,
      List.dropWhile_cons_of_pos (by decide), ← spaces, ← trimStart, ih]

/-- A line comment ends with its line. -/
theorem afterLine_append (h : MidLine later line) : afterLine (line ++ later) = later := by
  obtain ⟨body, hbody, rfl | ⟨rfl, rfl⟩⟩ := h.split
  · have hdrop : (body ++ ['\n'] ++ later).dropWhile (· ≠ '\n') = '\n' :: later := by
      rw [List.append_assoc, List.dropWhile_append_of_pos]
      · rfl
      · intro c hc
        simpa using ne_of_mem_of_not_mem hc hbody
    rw [afterLine, hdrop]
    rfl
  · have hdrop : line.dropWhile (· ≠ '\n') = [] := by
      rw [List.dropWhile_eq_nil_iff]
      intro c hc
      simpa using ne_of_mem_of_not_mem hc hbody
    rw [List.append_nil, afterLine, hdrop]
    rfl

theorem afterBlock_cons (h : ∀ rest, c = '*' → text ≠ '/' :: rest) :
    afterBlock (c :: text) = afterBlock text := by
  rw [afterBlock]
  exact fun rest hc htext => h rest hc htext

/-- The text is not layout where it begins. -/
def Solid (text : List Char) : Prop :=
  ∃ c rest, text = c :: rest ∧ isBlank c = false ∧ ¬ StartsComment text

/-- The blanks of a blanked line are the layout of its text, up to where the line goes on or to its
end. -/
theorem skip_blank {zone : Zone} (hzone : zone ≠ .string) (h : line = [] ∨ MidLine later line) :
    trimStart (blank zone line).1 = [] ∧
      skipLayout (ahead zone (line ++ later)) =
        skipLayout (ahead (zoneAfter (blank zone line).2) later) ∨
    ∃ rest, Solid rest ∧ MidLine later rest ∧
      skipLayout (ahead zone (line ++ later)) = rest ++ later ∧
      blank .code rest = (trimStart (blank zone line).1, (blank zone line).2) := by
  -- A mark of two characters is never cut by the end of the line: a newline is no part of one.
  fun_induction blank zone line with
  | case1 rest text openEnd heq ih =>
    have hrest : MidLine later rest := h.resolve_left (by simp)
    rw [heq] at ih
    rw [trimStart_spaces]
    exact ih (by simp) (.inr hrest)
  | case2 c rest hend text openEnd heq ih =>
    have hline := h.resolve_left (by simp)
    have hahead : afterBlock (c :: rest ++ later) = afterBlock (rest ++ later) := by
      refine afterBlock_cons fun tail hc hrest => ?_
      cases rest with
      | nil =>
        obtain rfl : later = [] := (midLine_cons (by simp [hc])).1 hline
        simp at hrest
      | cons d rest => exact hend rest hc (congrArg (· :: rest) (List.cons.inj hrest).1)
    rw [heq] at ih
    rw [trimStart_spaces, ahead, hahead]
    exact ih (by simp) hline.tail
  | case3 => exact .inl ⟨rfl, rfl⟩
  | case4 => exact absurd rfl hzone
  | case5 rest =>
    have hrest : MidLine later rest := h.resolve_left (by simp)
    refine .inl ⟨?_, ?_⟩
    · rw [← List.append_nil (spaces _), trimStart_spaces]
      rfl
    · rw [ahead, List.cons_append, List.cons_append, skipLayout_line, afterLine_append hrest]
      rfl
  | case6 rest text openEnd heq ih =>
    have hrest : MidLine later rest := h.resolve_left (by simp)
    rw [heq] at ih
    rw [trimStart_spaces, ahead, List.cons_append, List.cons_append, skipLayout_block]
    exact ih (by simp) (.inr hrest)
  | case7 c rest hslash hstar text openEnd heq ih =>
    have hline := h.resolve_left (by simp)
    have hcomment : ¬ StartsComment (c :: rest) := by
      rintro ⟨d, tail, htext, rfl | rfl⟩ <;> obtain ⟨rfl, rfl⟩ := List.cons.inj htext
      · exact hslash tail rfl rfl
      · exact hstar tail rfl rfl
    have hahead : ¬ StartsComment (c :: (rest ++ later)) :=
      mt (startsComment_append hline).1 hcomment
    by_cases hb : isBlank c = true
    · have hc : c ≠ '"' := by
        rintro rfl
        simp [isBlank] at hb
      rw [if_neg hc] at heq ih
      rw [heq] at ih
      rw [trimStart, List.dropWhile_cons_of_pos hb, ← trimStart, ahead, List.cons_append,
        skipLayout_cons hahead, if_pos hb]
      exact ih (by simp) hline.tail
    · refine .inr ⟨c :: rest, ⟨c, rest, rfl, by simpa using hb, hcomment⟩, hline, ?_, ?_⟩
      · rw [ahead, List.cons_append, skipLayout_cons hahead, if_neg hb]
      · rw [trimStart, List.dropWhile_cons_of_neg hb, blank_code_cons hcomment, heq]
  | case8 zone hblock =>
    refine .inl ⟨rfl, ?_⟩
    cases zone with
    | block => exact absurd rfl hblock
    | code | string => rfl

/-! ## Lexemes -/

/-- A string in a line is left as it is, up to its end or, if it has none, that of the line. -/
theorem blank_string (line : List Char) :
    (∃ content rest, line = content ++ '"' :: rest ∧ '"' ∉ content ∧
      blank .string line = (content ++ '"' :: (blank .code rest).1, (blank .code rest).2)) ∨
    '"' ∉ line ∧ blank .string line = (line, false) := by
  induction line with
  | nil => exact .inr ⟨List.not_mem_nil, rfl⟩
  | cons c line ih =>
    rw [blank]
    by_cases hc : c = '"'
    · subst hc
      exact .inl ⟨[], line, rfl, List.not_mem_nil, rfl⟩
    · rw [if_neg hc]
      rcases ih with ⟨content, rest, rfl, hcontent, hblank⟩ | ⟨hline, hblank⟩
      · refine .inl ⟨c :: content, rest, rfl, ?_, by rw [hblank]; rfl⟩
        rw [List.mem_cons, not_or]
        exact ⟨Ne.symm hc, hcontent⟩
      · refine .inr ⟨?_, by rw [hblank]⟩
        rw [List.mem_cons, not_or]
        exact ⟨Ne.symm hc, hline⟩

/-- A run of characters ends where one does not belong to it. -/
theorem span_append {p : Char → Bool} (part rest : List Char) (hpart : ∀ c ∈ part, p c = true)
    (hrest : ∀ c ∈ rest.head?, p c = false) :
    (part ++ rest).takeWhile p = part ∧ (part ++ rest).dropWhile p = rest := by
  rw [List.takeWhile_append_of_pos hpart, List.dropWhile_append_of_pos hpart]
  cases rest with
  | nil => exact ⟨List.append_nil _, rfl⟩
  | cons c rest =>
    have hc : ¬ p c = true := by simp [hrest c rfl]
    rw [List.takeWhile_cons_of_neg hc, List.dropWhile_cons_of_neg hc, List.append_nil]
    exact ⟨rfl, rfl⟩

theorem endsWord_of_head?_blank (h : endsWord c = true) :
    ∀ d ∈ (blank .code (c :: rest)).1.head?, endsWord d = true := by
  intro d hd
  by_cases hcomment : StartsComment (c :: rest)
  · obtain ⟨e, tail, htext, rfl | rfl⟩ := hcomment <;> obtain ⟨rfl, rfl⟩ := List.cons.inj htext
    · rw [blank, Nat.add_comm, spaces, List.replicate_succ] at hd
      obtain rfl := Option.some.inj hd
      rfl
    · rw [blank] at hd
      obtain rfl := Option.some.inj hd
      rfl
  · rw [blank_code_cons hcomment] at hd
    obtain rfl := Option.some.inj hd
    exact h

/-- A word in a line is left as it is, and ends where it ended. -/
theorem blank_word (h : MidLine later line) :
    ∃ word rest, line = word ++ rest ∧ (∀ c ∈ word, endsWord c = false) ∧
      blank .code line = (word ++ (blank .code rest).1, (blank .code rest).2) ∧
      (∀ c ∈ (blank .code rest).1.head?, endsWord c = true) ∧
      ∀ c ∈ (rest ++ later).head?, endsWord c = true := by
  induction line with
  | nil =>
    obtain rfl : later = [] := h
    exact ⟨[], [], rfl, by simp, rfl, by simp [blank], by simp⟩
  | cons c line ih =>
    by_cases hc : endsWord c = true
    · refine ⟨[], c :: line, rfl, by simp, rfl, endsWord_of_head?_blank hc, ?_⟩
      simpa using hc
    · rw [Bool.not_eq_true] at hc
      have hcomment : ¬ StartsComment (c :: line) := by
        rintro ⟨d, tail, htext, -⟩
        obtain ⟨rfl, -⟩ := List.cons.inj htext
        exact absurd hc (by decide)
      have hne : ∀ d, endsWord d = true → c ≠ d := by
        rintro d hd rfl
        rw [hc] at hd
        exact absurd hd (by decide)
      obtain ⟨word, rest, rfl, hword, hblank, hhead, hlater⟩ :=
        ih ((midLine_cons (hne '\n' (by decide))).1 h)
      refine ⟨c :: word, rest, rfl, List.forall_mem_cons.2 ⟨hc, hword⟩, ?_, hhead, hlater⟩
      rw [blank_code_cons hcomment, if_neg (hne '"' (by decide)), hblank]
      rfl

/-- The blanked line and the text have the same lexeme in front, and go on at the same place; or
neither has one. -/
def SameCut (later : List Char) (blanked : List Char × Bool) (text : List Char) : Prop :=
  WholeText.cut? text = none ∧ Lexeme.cut? blanked.1 = none ∨
    ∃ lexeme rest, (rest = [] ∨ MidLine later rest) ∧
      WholeText.cut? text = some (lexeme, rest ++ later) ∧
      Lexeme.cut? blanked.1 = some (lexeme, (blank .code rest).1) ∧
      blanked.2 = (blank .code rest).2

/-- A string that is closed behind the end of its line is not closed. -/
theorem cut?_of_open (hopen : '"' ∉ line) (h : MidLine later line) :
    WholeText.cut? ('"' :: (line ++ later)) = none := by
  rw [WholeText.cut?, if_pos rfl]
  obtain ⟨body, hbody, hline⟩ := h.split
  have hpart : ∀ d ∈ body, (d ≠ '"' && d ≠ '\n') = true := by
    intro d hd
    have hquote : d ∈ line := by
      rcases hline with rfl | ⟨rfl, -⟩
      · exact List.mem_append_left _ hd
      · exact hd
    simp [ne_of_mem_of_not_mem hquote hopen, ne_of_mem_of_not_mem hd hbody]
  rcases hline with rfl | ⟨rfl, rfl⟩
  · rw [List.append_assoc, List.singleton_append, (span_append body ('\n' :: later) hpart (by simp)).2]
    rfl
  · rw [(span_append line [] hpart (by simp)).2]

theorem sameCut_string (h : MidLine later line) :
    SameCut later ('"' :: (blank .string line).1, (blank .string line).2)
      ('"' :: (line ++ later)) := by
  rcases blank_string line with ⟨content, rest, rfl, hcontent, hline⟩ | ⟨hopen, hline⟩
  · have hnotquote : ∀ d ∈ content, d ≠ '"' := fun d hd => ne_of_mem_of_not_mem hd hcontent
    have hinside : ∀ d ∈ content, d ≠ '\n' := fun d hd => ne_of_mem_of_not_mem hd h.not_mem
    obtain ⟨htake, hdrop⟩ := span_append (p := fun d => d ≠ '"' && d ≠ '\n') content
      ('"' :: (rest ++ later)) (fun d hd => by simp [hnotquote d hd, hinside d hd]) (by simp)
    obtain ⟨htake', hdrop'⟩ := span_append (p := fun d => d ≠ '"') content
      ('"' :: (blank .code rest).1) (fun d hd => by simp [hnotquote d hd]) (by simp)
    refine .inr ⟨'"' :: content ++ ['"'], rest, ((midLine_append h.not_mem).1 h).tail, ?_, ?_, ?_⟩
    · rw [WholeText.cut?, if_pos rfl, List.append_assoc, List.cons_append, htake, hdrop]
      rfl
    · rw [hline, Lexeme.cut?, if_pos rfl, htake', hdrop']
    · rw [hline]
  · have hdrop : line.dropWhile (· ≠ '"') = [] := by
      rw [List.dropWhile_eq_nil_iff]
      intro d hd
      simpa using ne_of_mem_of_not_mem hd hopen
    exact .inl ⟨cut?_of_open hopen h, by rw [hline, Lexeme.cut?, if_pos rfl, hdrop]⟩

theorem sameCut_word (hquote : c ≠ '"') (hsymbol : ¬ isSymbol c = true) (h : MidLine later line) :
    SameCut later (c :: (blank .code line).1, (blank .code line).2) (c :: (line ++ later)) := by
  obtain ⟨word, rest, rfl, hword, hline, hhead, hlater⟩ := blank_word h
  have hpart : ∀ d ∈ word, (!endsWord d) = true := by simpa using hword
  have hinside : '\n' ∉ word := fun hmem => absurd (hword _ hmem) (by decide)
  obtain ⟨htake, hdrop⟩ := span_append word (rest ++ later) hpart (by simpa using hlater)
  obtain ⟨htake', hdrop'⟩ := span_append word (blank .code rest).1 hpart (by simpa using hhead)
  refine .inr ⟨c :: word, rest, .inr ((midLine_append hinside).1 h), ?_, ?_, ?_⟩
  · rw [WholeText.cut?, if_neg hquote, if_neg hsymbol, List.append_assoc, htake, hdrop]
  · rw [hline, Lexeme.cut?, if_neg hquote, if_neg hsymbol, htake', hdrop']
  · rw [hline]

theorem sameCut_blank (hsolid : Solid line) (h : MidLine later line) :
    SameCut later (blank .code line) (line ++ later) := by
  obtain ⟨c, line, rfl, hblank, hcomment⟩ := hsolid
  have hnewline : c ≠ '\n' := by
    rintro rfl
    simp [isBlank] at hblank
  rw [midLine_cons hnewline] at h
  rw [blank_code_cons hcomment, List.cons_append]
  by_cases hquote : c = '"'
  · subst hquote
    exact sameCut_string h
  · rw [if_neg hquote]
    by_cases hsymbol : isSymbol c = true
    · refine .inr ⟨[c], line, .inr h, ?_, ?_, rfl⟩
      · rw [WholeText.cut?, if_neg hquote, if_pos hsymbol]
      · rw [Lexeme.cut?, if_neg hquote, if_pos hsymbol]
    · exact sameCut_word hquote hsymbol h

end Layout

/-! ## Scanners -/

/-- What is left to be scanned where a scanner stands, but for layout. -/
def Stands (s : Scanner) (text : List Char) : Prop :=
  ∃ zone line later, zone ≠ Zone.string ∧ (line = [] ∨ MidLine later line) ∧
    s.pending = .ofChars later ∧ (s.rest, s.inComment) = blank zone line ∧
    skipLayout text = skipLayout (ahead zone (line ++ later))

/-- The failure of a text that the error tells. -/
def ScanError.failure? : ScanError → Option Failure
  | .invalidToken lexeme _ => some (.rejected lexeme.toList .malformed)
  | .numberTooLarge lexeme _ => some (.rejected lexeme.toList .numberTooLarge)
  | .characterTooLarge lexeme _ => some (.rejected lexeme.toList .characterTooLarge)
  | .openString _ => some .unterminated
  | .read _ => none

/-- The answer of a scanner is what stands in front of the text. -/
inductive Answers (text : List Char) : Except ScanError (Option Token) × Scanner → Prop
  | done {s : Scanner} (htext : skipLayout text = []) : Answers text (.ok none, s)
  | unterminated {s : Scanner} {span : Span} (htext : skipLayout text ≠ [])
    (hcut : WholeText.cut? (skipLayout text) = none) :
    Answers text (.error (.openString span), s)
  | rejected {s : Scanner} {lexeme after : List Char} {span : Span} {reason : Lexeme.Flaw}
    (hcut : WholeText.cut? (skipLayout text) = some (lexeme, after))
    (hdecode : decode lexeme = .error reason) :
    Answers text (.error (.ofFlaw (String.ofList lexeme) span reason), s)
  | token {s : Scanner} {lexeme after : List Char} {span : Span} {kind : Token.Kind}
    (hcut : WholeText.cut? (skipLayout text) = some (lexeme, after))
    (hdecode : decode lexeme = .ok kind) (h : Stands s after) :
    Answers text (.ok (some ⟨kind, String.ofList lexeme, span⟩), s)

section Scanner

variable {s : Scanner} {text : List Char}

theorem stands_ofSource (text : List Char) : Stands (.ofSource (.ofChars text)) text :=
  ⟨.code, [], text, by simp, .inl rfl, rfl, rfl, rfl⟩

/-- A scanner that has skipped the blanks of its line stands where the line goes on, or has come to
its end. -/
theorem Stands.skipBlanks (h : Stands s text) :
    s.skipBlanks.rest = [] ∧ (∃ later, s.pending = .ofChars later ∧
      skipLayout text = skipLayout (ahead (zoneAfter s.inComment) later)) ∨
    s.skipBlanks.rest ≠ [] ∧ ∃ line later, Solid line ∧ MidLine later line ∧
      s.pending = .ofChars later ∧ (s.skipBlanks.rest, s.inComment) = blank .code line ∧
      skipLayout text = line ++ later := by
  obtain ⟨zone, line, later, hzone, hline, hpending, hblank, htext⟩ := h
  rw [htext]
  rcases skip_blank hzone hline with ⟨hrest, hskip⟩ | ⟨rest, hsolid, hmid, hskip, hcode⟩
  · rw [← hblank] at hrest hskip
    exact .inl ⟨hrest, later, hpending, hskip⟩
  · rw [← hblank] at hcode
    refine .inr ⟨?_, rest, later, hsolid, hmid, hpending, hcode.symm, hskip⟩
    obtain ⟨c, rest, rfl, -, hcomment⟩ := hsolid
    rw [blank_code_cons hcomment] at hcode
    exact fun hempty => List.cons_ne_nil _ _ ((Prod.mk.inj hcode).1.trans hempty)

theorem stands_enterLine {line later : List Char} {lines : Source}
    (h : Source.ofChars later = .ok line :: lines)
    (htext : skipLayout text = skipLayout (ahead (zoneAfter s.inComment) later)) :
    Stands (s.enterLine line lines) text := by
  unfold Source.ofChars Source.ofLines at h
  obtain ⟨_, rest, hlines, hline, rfl⟩ := List.map_eq_cons_iff.1 h
  obtain rfl := Except.ok.inj hline
  obtain ⟨later', rfl, rfl, hmid⟩ := linesEnding_eq_cons hlines
  refine ⟨zoneAfter s.inComment, _, later', ?_, .inr hmid, rfl, rfl, htext⟩
  unfold zoneAfter
  split <;> simp

theorem answers_lexeme {line later : List Char} (hsolid : Solid line) (hmid : MidLine later line)
    (hpending : s.pending = .ofChars later) (hblank : (s.rest, s.inComment) = blank .code line)
    (htext : skipLayout text = line ++ later) :
    Answers text (s.lexeme.1.map some, s.lexeme.2) := by
  obtain ⟨hrest, hcomment⟩ := Prod.mk.inj hblank
  have hne : skipLayout text ≠ [] := by
    obtain ⟨c, rest, rfl, -⟩ := hsolid
    rw [htext]
    simp
  unfold Scanner.lexeme
  rw [hrest]
  rcases sameCut_blank hsolid hmid with ⟨hcut, hcut'⟩ | ⟨lexeme, rest, hline, hcut, hcut', hopen⟩
  · rw [hcut']
    exact .unterminated hne (htext ▸ hcut)
  · rw [hcut']
    rw [← htext] at hcut
    simp only
    cases hdecode : decode lexeme with
    | error reason => exact .rejected hcut hdecode
    | ok kind =>
      exact .token hcut hdecode ⟨.code, rest, later, by simp, hline, hpending,
        by simp only [hcomment, hopen], rfl⟩

theorem Stands.next (h : Stands s text) : Answers text s.next := by
  fun_induction Scanner.next s with
  | case1 s s' hempty hpending =>
    obtain ⟨-, later, hlater, htext⟩ | ⟨hne, -⟩ := h.skipBlanks
    · have hlines := flatten_linesEnding (· = '\n') later
      rw [hpending] at hlater
      rw [List.map_eq_nil_iff.1 hlater.symm] at hlines
      subst hlines
      refine .done (htext.trans ?_)
      cases s.inComment <;> exact skipLayout_nil
    · exact absurd (List.isEmpty_iff.1 hempty) hne
  | case2 s s' hempty reason pending hpending =>
    obtain ⟨-, later, hlater, -⟩ | ⟨hne, -⟩ := h.skipBlanks
    · rw [hpending] at hlater
      obtain ⟨_, _, -, hline, -⟩ := List.map_eq_cons_iff.1 hlater.symm
      exact absurd hline (by simp)
    · exact absurd (List.isEmpty_iff.1 hempty) hne
  | case3 s s' hempty line pending hpending ih =>
    obtain ⟨-, later, hlater, htext⟩ | ⟨hne, -⟩ := h.skipBlanks
    · exact ih (stands_enterLine (hlater.symm.trans hpending) htext)
    · exact absurd (List.isEmpty_iff.1 hempty) hne
  | case4 s s' hrest result after hlexeme =>
    obtain ⟨hnil, -⟩ | ⟨-, line, later, hsolid, hmid, hpending, hblank, htext⟩ := h.skipBlanks
    · exact absurd (List.isEmpty_iff.2 hnil) hrest
    · have hanswers := answers_lexeme hsolid hmid (s := s') hpending hblank htext
      rwa [hlexeme] at hanswers

end Scanner

/-! ## Texts -/

section Scan

variable {text lexeme after : List Char}

theorem scan_of_nil (h : skipLayout text = []) : scan text = ([], none) := by
  rw [scan]
  split
  · rfl
  · rename_i c rest htext
    rw [htext] at h
    simp at h

theorem scan_of_unterminated (htext : skipLayout text ≠ [])
    (hcut : WholeText.cut? (skipLayout text) = none) : scan text = ([], some .unterminated) := by
  rw [scan]
  split
  · contradiction
  · rename_i c rest hskip
    rw [hskip] at hcut
    split
    · rfl
    · simp_all

theorem scan_of_rejected {reason : Lexeme.Flaw}
    (hcut : WholeText.cut? (skipLayout text) = some (lexeme, after))
    (hdecode : decode lexeme = .error reason) :
    scan text = ([], some (.rejected lexeme reason)) := by
  rw [scan]
  split
  · rename_i hskip
    rw [hskip] at hcut
    simp [WholeText.cut?] at hcut
  · rename_i c rest hskip
    rw [hskip] at hcut
    split
    · simp_all
    · rename_i lexeme' after' hcut'
      obtain ⟨rfl, rfl⟩ := Prod.mk.inj (Option.some.inj (hcut'.symm.trans hcut))
      rw [hdecode]

theorem scan_of_token {kind : Token.Kind}
    (hcut : WholeText.cut? (skipLayout text) = some (lexeme, after))
    (hdecode : decode lexeme = .ok kind) :
    scan text = ((kind, lexeme) :: (scan after).1, (scan after).2) := by
  rw [scan]
  split
  · rename_i hskip
    rw [hskip] at hcut
    simp [WholeText.cut?] at hcut
  · rename_i c rest hskip
    rw [hskip] at hcut
    split
    · simp_all
    · rename_i lexeme' after' hcut'
      obtain ⟨rfl, rfl⟩ := Prod.mk.inj (Option.some.inj (hcut'.symm.trans hcut))
      rw [hdecode]

end Scan

theorem ScanError.failure?_ofFlaw (lexeme : List Char) (span : Span) (reason : Lexeme.Flaw) :
    (ofFlaw (String.ofList lexeme) span reason).failure? = some (.rejected lexeme reason) := by
  cases reason <;> simp [ofFlaw, failure?]

/-- A scanner gives the tokens of the text that it stands before, and fails as that does. -/
theorem Stands.tokens {s : Scanner} {text : List Char} (h : Stands s text) :
    s.tokens.tokens.map (fun t => (t.kind, t.lexeme.toList)) = (scan text).1 ∧
      s.tokens.stop.map ScanError.failure? = (scan text).2.map some := by
  have hanswers := h.next
  fun_induction Scanner.tokens s generalizing text with
  | case1 s t s' hnext later =>
    rename_i ih
    rw [hnext] at hanswers
    cases hanswers with
    | token hcut hdecode hstands =>
      obtain ⟨htokens, hstop⟩ := ih hstands hstands.next
      rw [scan_of_token hcut hdecode, List.map_cons, htokens, String.toList_ofList]
      exact ⟨rfl, hstop⟩
  | case2 s s' hnext =>
    rw [hnext] at hanswers
    cases hanswers with
    | done htext =>
      rw [scan_of_nil htext]
      exact ⟨rfl, rfl⟩
  | case3 s e s' hnext =>
    rw [hnext] at hanswers
    cases hanswers with
    | unterminated htext hcut =>
      rw [scan_of_unterminated htext hcut]
      exact ⟨rfl, rfl⟩
    | rejected hcut hdecode =>
      rw [scan_of_rejected hcut hdecode, Option.map_some, ScanError.failure?_ofFlaw]
      exact ⟨rfl, rfl⟩

/-- The tokens of a text that is scanned to its end. -/
theorem kinds_of_scan {text : List Char} {items : List (Token.Kind × List Char)}
    (h : scan text = (items, none)) :
    (TokenStream.ofSource (.ofChars text)).tokens.map (·.kind) = items.map (·.1) ∧
      (TokenStream.ofSource (.ofChars text)).stop = none := by
  obtain ⟨htokens, hstop⟩ := (stands_ofSource text).tokens
  rw [h] at htokens hstop
  have hkinds := congrArg (List.map Prod.fst) htokens
  rw [List.map_map] at hkinds
  exact ⟨hkinds, Option.map_eq_none_iff.1 hstop⟩

/-- Whatever its lines, a source has the tokens that its text has as a whole, and where it has no
more, it is for the same failure or for none. -/
theorem scan_line_by_line (text : String) :
    (TokenStream.ofSource (.ofString text)).tokens.map (fun t => (t.kind, t.lexeme.toList)) =
        (scan text.toList).1 ∧
      (TokenStream.ofSource (.ofString text)).stop.map ScanError.failure? =
        (scan text.toList).2.map some :=
  (stands_ofSource text.toList).tokens

end Jack

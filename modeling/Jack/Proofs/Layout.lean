import Jack.Scanner.WholeText
import Mathlib.Data.List.TakeWhile

/-!
# Layout

Layout is what stands between tokens: white space, and comments with their ends (`Layout`). At the
end of a text a comment may be left open (`LastLayout`). What is skipped in front of a token is
layout, and where nothing is left, all of the text is (`skips_skipLayout`).
-/

namespace Jack.WholeText

open Text

/-- White space and comments. A line comment ends with a newline, a block comment with the first end
mark behind its opening. -/
inductive Layout : List Char → Prop
  | nil : Layout []
  | blank {c : Char} {rest : List Char} (h : isBlank c = true) (hrest : Layout rest) :
    Layout (c :: rest)
  | line {body rest : List Char} (h : '\n' ∉ body) (hrest : Layout rest) :
    Layout ('/' :: '/' :: (body ++ '\n' :: rest))
  | block {body rest : List Char} (h : ¬ ['*', '/'] <:+: body) (hrest : Layout rest) :
    Layout ('/' :: '*' :: (body ++ '*' :: '/' :: rest))

/-- A comment that goes to the end of the text. -/
inductive OpenComment : List Char → Prop
  | line {body : List Char} (h : '\n' ∉ body) : OpenComment ('/' :: '/' :: body)
  | block {body : List Char} (h : ¬ ['*', '/'] <:+: body) : OpenComment ('/' :: '*' :: body)

/-- Layout at the end of a text. -/
inductive LastLayout : List Char → Prop
  | closed {text : List Char} (h : Layout text) : LastLayout text
  | opened {front comment : List Char} (h : Layout front) (hopen : OpenComment comment) :
    LastLayout (front ++ comment)

variable {front text rest : List Char}

theorem Layout.append (hfront : Layout front) (h : Layout text) : Layout (front ++ text) := by
  induction hfront with
  | nil => exact h
  | blank hblank _ ih => exact .blank hblank ih
  | line hbody _ ih => simpa only [List.cons_append, List.append_assoc] using Layout.line hbody ih
  | block hbody _ ih => simpa only [List.cons_append, List.append_assoc] using Layout.block hbody ih

/-- A line goes through a newline or to the end of the text. -/
theorem afterLine_cases (text : List Char) :
    ∃ body, '\n' ∉ body ∧
      (text = body ++ '\n' :: afterLine text ∨ text = body ∧ afterLine text = []) := by
  have hsplit := List.takeWhile_append_dropWhile (p := (· ≠ '\n')) (l := text)
  refine ⟨text.takeWhile (· ≠ '\n'), fun hmem => ?_, ?_⟩
  · simpa using List.mem_takeWhile_imp hmem
  · unfold afterLine
    cases hrest : text.dropWhile (· ≠ '\n') with
    | nil =>
      rw [hrest, List.append_nil] at hsplit
      exact .inr ⟨hsplit.symm, rfl⟩
    | cons c rest =>
      have hc := List.head?_dropWhile_not (· ≠ '\n') text
      rw [hrest] at hc hsplit
      obtain rfl : c = '\n' := by simpa using hc
      exact .inl hsplit.symm

/-- A block comment goes through the first end mark or to the end of the text. -/
theorem afterBlock_cases (text : List Char) :
    ∃ body, ¬ ['*', '/'] <:+: body ∧
      (text = body ++ '*' :: '/' :: afterBlock text ∨ text = body ∧ afterBlock text = []) := by
  fun_induction afterBlock text with
  | case1 => exact ⟨[], by simp, .inr ⟨rfl, rfl⟩⟩
  | case2 rest => exact ⟨[], by simp, .inl rfl⟩
  | case3 c rest hend ih =>
    obtain ⟨body, hbody, hrest⟩ := ih
    refine ⟨c :: body, fun hinfix => ?_, ?_⟩
    · rcases List.infix_cons_iff.1 hinfix with hprefix | hinfix
      · obtain ⟨rfl, tail, rfl⟩ : c = '*' ∧ ∃ tail, body = '/' :: tail := by
          obtain ⟨tail, htail⟩ := hprefix
          simp only [List.cons_append, List.nil_append, List.cons.injEq] at htail
          exact ⟨htail.1.symm, tail, htail.2.symm⟩
        rcases hrest with hrest | ⟨hrest, -⟩
        · exact hend _ rfl hrest
        · exact hend _ rfl hrest
      · exact hbody hinfix
    · rcases hrest with hrest | ⟨hrest, hnil⟩
      · exact .inl (congrArg (c :: ·) hrest)
      · exact .inr ⟨congrArg (c :: ·) hrest, hnil⟩

/-- What stands in front of the rest is layout; a comment that is left open leaves no rest. -/
def Skips (text rest : List Char) : Prop :=
  ∃ gap, text = gap ++ rest ∧ (Layout gap ∨ rest = [] ∧ LastLayout gap)

theorem Skips.refl (text : List Char) : Skips text text := ⟨[], rfl, .inl .nil⟩

theorem Skips.behind (hfront : Layout front) (h : Skips text rest) :
    Skips (front ++ text) rest := by
  obtain ⟨gap, rfl, hlayout⟩ := h
  refine ⟨front ++ gap, (List.append_assoc ..).symm, ?_⟩
  rcases hlayout with hlayout | ⟨hnil, hlast⟩
  · exact .inl (hfront.append hlayout)
  · cases hlast with
    | closed hlayout => exact .inl (hfront.append hlayout)
    | opened hgap hopen =>
      refine .inr ⟨hnil, ?_⟩
      rw [← List.append_assoc]
      exact .opened (hfront.append hgap) hopen

theorem Skips.opened (h : OpenComment text) : Skips text [] :=
  ⟨text, (List.append_nil _).symm, .inr ⟨rfl, .opened .nil h⟩⟩

/-- What is skipped is layout. -/
theorem skips_skipLayout (text : List Char) : Skips text (skipLayout text) := by
  fun_induction skipLayout text with
  | case1 => exact .refl []
  | case2 rest ih =>
    obtain ⟨body, hbody, hrest | ⟨hrest, hnil⟩⟩ := afterLine_cases rest
    · have hskips := ih.behind (.line hbody .nil)
      rwa [List.cons_append, List.cons_append, List.append_assoc, List.singleton_append, ← hrest]
        at hskips
    · rw [hnil, skipLayout.eq_def, hrest]
      exact .opened (.line hbody)
  | case3 rest ih =>
    obtain ⟨body, hbody, hrest | ⟨hrest, hnil⟩⟩ := afterBlock_cases rest
    · have hskips := ih.behind (.block hbody .nil)
      rwa [List.cons_append, List.cons_append, List.append_assoc, List.cons_append,
        List.singleton_append, ← hrest] at hskips
    · rw [hnil, skipLayout.eq_def, hrest]
      exact .opened (.block hbody)
  | case4 c rest hline hblock hblank ih => exact ih.behind (.blank hblank .nil)
  | case5 c rest => exact .refl _

end Jack.WholeText

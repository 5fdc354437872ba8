import Jack.Lexeme

/-!
# Scanning a text as a whole

The rules of the lexemes, for a text that is not cut into lines. Layout is blanks and comments: a
line comment goes through the next newline, a block comment through the first `*/` behind its
opening, and either may go to the end. A string has to be closed on its line. A lexeme that is no
word, number or string is a single symbol. `scan` gives the lexemes with their kinds, and the
failure that ends them, if any.
-/

namespace Jack.WholeText

open Text Lexeme

/-- What stands behind the end of a block comment. -/
def afterBlock : List Char → List Char
  | [] => []
  | '*' :: '/' :: rest => rest
  | _ :: rest => afterBlock rest

def afterLine (text : List Char) : List Char := (text.dropWhile (· ≠ '\n')).drop 1

theorem length_afterBlock_le (text : List Char) : (afterBlock text).length ≤ text.length := by
  fun_induction afterBlock text <;> simp_all <;> omega

theorem length_afterLine_le (text : List Char) : (afterLine text).length ≤ text.length := by
  have := (text.dropWhile_suffix (· ≠ '\n')).length_le
  simp only [afterLine, List.length_drop]; omega

/-- Drops the blanks and comments in front. -/
def skipLayout (text : List Char) : List Char :=
  match text with
  | [] => []
  | '/' :: '/' :: rest => skipLayout (afterLine rest)
  | '/' :: '*' :: rest => skipLayout (afterBlock rest)
  | c :: rest => if isBlank c then skipLayout rest else c :: rest
termination_by text.length
decreasing_by
  · have := length_afterLine_le rest; simp only [List.length_cons]; omega
  · have := length_afterBlock_le rest; simp only [List.length_cons]; omega
  · simp

theorem length_skipLayout_le (text : List Char) : (skipLayout text).length ≤ text.length := by
  fun_induction skipLayout text with
  | case1 => simp
  | case2 rest ih =>
    have := length_afterLine_le rest
    simp only [List.length_cons]; omega
  | case3 rest ih =>
    have := length_afterBlock_le rest
    simp only [List.length_cons]; omega
  | case4 c rest _ _ hb ih => simp only [List.length_cons]; omega
  | case5 => simp

/-- The lexeme in front and what follows it; a string that is left open on its line is none. -/
def cut? : List Char → Option (List Char × List Char)
  | [] => none
  | c :: rest =>
    if c = '"' then
      match rest.dropWhile (fun d => d ≠ '"' && d ≠ '\n') with
      | '"' :: after =>
        some (c :: rest.takeWhile (fun d => d ≠ '"' && d ≠ '\n') ++ ['"'], after)
      | _ => none
    else if isSymbol c then some ([c], rest)
    else some (c :: rest.takeWhile (!endsWord ·), rest.dropWhile (!endsWord ·))

theorem length_lt_of_cut? {text lexeme after : List Char} (h : cut? text = some (lexeme, after)) :
    after.length < text.length := by
  cases text with
  | nil => simp [cut?] at h
  | cons c rest =>
    simp only [cut?] at h
    split at h
    · split at h
      · rename_i hd
        have hs := (rest.dropWhile_suffix fun d => d ≠ '"' && d ≠ '\n').length_le
        rw [hd, List.length_cons] at hs
        simp only [Option.some.injEq, Prod.mk.injEq] at h
        rw [← h.2, List.length_cons]; omega
      · simp at h
    · split at h <;> simp only [Option.some.injEq, Prod.mk.injEq] at h <;> rw [← h.2]
      · simp
      · have hs := (rest.dropWhile_suffix (!endsWord ·)).length_le
        simp only [List.length_cons]; omega

inductive Failure
  | rejected (lexeme : List Char) (reason : Flaw)
  | unterminated
  deriving DecidableEq, Repr

/-- The lexemes of a text with their kinds, up to the first failure. -/
def scan (text : List Char) : List (Token.Kind × List Char) × Option Failure :=
  match _h : skipLayout text with
  | [] => ([], none)
  | c :: rest =>
    match _h' : cut? (c :: rest) with
    | none => ([], some .unterminated)
    | some (lexeme, after) =>
      match decode lexeme with
      | .error reason => ([], some (.rejected lexeme reason))
      | .ok kind =>
        let (later, failure) := scan after
        ((kind, lexeme) :: later, failure)
termination_by text.length
decreasing_by
  have h1 := length_skipLayout_le text
  have h2 := length_lt_of_cut? _h'
  rw [_h] at h1; omega

end Jack.WholeText

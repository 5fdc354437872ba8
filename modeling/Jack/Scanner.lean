import Jack.Comment
import Jack.Lexeme
import Jack.Source

/-!
# Scanning

A scanner stands in the middle of a source. `next` skips blanks and comments, reading lines as it
needs them, and decodes one lexeme. A lexeme that is no token is consumed, a string that is left
open is not, so that it fails again. Whatever `next` decodes or rejects shortens the text that is
left (`size_next_lt`), so a source has finitely many tokens; `TokenStream` holds those before the
first failure.
-/

namespace Jack

open Text

inductive ScanError
  | invalidToken (lexeme : String) (span : Span)
  | numberTooLarge (lexeme : String) (span : Span)
  | characterTooLarge (lexeme : String) (span : Span)
  | openString (span : Span)
  /-- The source could not be read, for the given reason. -/
  | read (reason : String)
  deriving DecidableEq, Repr

structure Scanner where
  /-- The reads that are still to come. -/
  pending : Source
  /-- What is left of the current line, its comments blanked. -/
  rest : List Char := []
  /-- The byte offset of `rest` in the source. -/
  offset : Nat := 0
  /-- A block comment is open at the end of the current line. -/
  inComment : Bool := false

/-- The tokens of a source up to its first failure, if any. -/
structure TokenStream where
  tokens : List Token
  stop : Option ScanError := none
  deriving Repr

namespace ScanError

def ofFlaw (lexeme : String) (span : Span) : Lexeme.Flaw → ScanError
  | .malformed => .invalidToken lexeme span
  | .numberTooLarge => .numberTooLarge lexeme span
  | .characterTooLarge => .characterTooLarge lexeme span

end ScanError

namespace Scanner

def ofSource (source : Source) : Scanner := { pending := source }

/-- Moves past blanks of the current line. -/
def skipBlanks (s : Scanner) : Scanner :=
  { s with
    rest := trimStart s.rest
    offset := s.offset + byteSize (s.rest.takeWhile isBlank) }

/-- Decodes the lexeme at which the scanner stands. -/
def lexeme (s : Scanner) : Except ScanError Token × Scanner :=
  match Lexeme.cut? s.rest with
  | none => (.error (.openString ⟨s.offset, s.offset + byteSize (trimEnd s.rest)⟩), s)
  | some (cs, rest) =>
    let span : Span := ⟨s.offset, s.offset + byteSize cs⟩
    let text := String.ofList cs
    let after := { s with rest, offset := span.stop }
    match Lexeme.decode cs with
    | .ok kind => (.ok ⟨kind, text, span⟩, after)
    | .error flaw => (.error (.ofFlaw text span flaw), after)

/-- Leaves the current line, of which nothing is left, for the next one. -/
def enterLine (line : List Char) (pending : Source) (s : Scanner) : Scanner :=
  let (rest, inComment) := Comment.blank (if s.inComment then .block else .code) line
  { pending, rest, offset := s.offset, inComment }

/-- The characters left of the line, and for each line still to be read its bytes and one more. -/
def size (s : Scanner) : Nat :=
  s.rest.length + s.pending.foldr (fun
    | .ok line, n => byteSize line + 1 + n
    | .error _, n => 1 + n) 0

/-- The next token; none at the end of the source. -/
def next (s : Scanner) : Except ScanError (Option Token) × Scanner :=
  let s' := s.skipBlanks
  if s'.rest.isEmpty then
    match _h : s.pending with
    | [] => (.ok none, s')
    | .error reason :: pending => (.error (.read reason), { s' with pending })
    | .ok line :: pending => (s'.enterLine line pending).next
  else
    let (result, after) := s'.lexeme
    (result.map some, after)
termination_by s.pending.length
decreasing_by simp [_h, enterLine]

section Next

variable {s : Scanner} {pending : Source}

theorem next_of_end (hr : s.skipBlanks.rest = []) (hp : s.pending = []) :
    s.next = (.ok none, s.skipBlanks) := by
  rw [next, if_pos (List.isEmpty_iff.2 hr)]
  split <;> simp_all

theorem next_of_failure {reason : String} (hr : s.skipBlanks.rest = [])
    (hp : s.pending = .error reason :: pending) :
    s.next = (.error (.read reason), { s.skipBlanks with pending }) := by
  rw [next, if_pos (List.isEmpty_iff.2 hr)]
  split <;> simp_all

theorem next_of_line {line : List Char} (hr : s.skipBlanks.rest = [])
    (hp : s.pending = .ok line :: pending) :
    s.next = (s.skipBlanks.enterLine line pending).next := by
  rw [next, if_pos (List.isEmpty_iff.2 hr)]
  split <;> simp_all

theorem next_of_lexeme (hr : s.skipBlanks.rest ≠ []) :
    s.next = (s.skipBlanks.lexeme.1.map some, s.skipBlanks.lexeme.2) := by
  rw [next, if_neg (mt List.isEmpty_iff.1 hr)]

end Next

theorem size_skipBlanks_le (s : Scanner) : s.skipBlanks.size ≤ s.size := by
  simp only [size, skipBlanks, trimStart]
  exact Nat.add_le_add_right (s.rest.dropWhile_suffix isBlank).length_le _

theorem size_lexeme_lt {s : Scanner} :
    s.lexeme.2.size < s.size ∨ ∃ span, s.lexeme.1 = .error (.openString span) := by
  simp only [lexeme]
  split
  · exact .inr ⟨_, rfl⟩
  · rename_i cs rest h
    obtain ⟨hne, happ⟩ := Lexeme.cut?_eq_some h
    have hlt : rest.length < s.rest.length := by
      have := List.length_pos_iff.2 hne
      rw [← happ, List.length_append]; omega
    left
    split <;> simp only [size] <;> omega

theorem size_enterLine_lt {s : Scanner} {line : List Char} {pending : Source}
    (h : s.pending = .ok line :: pending) : (s.enterLine line pending).size < s.size := by
  have hb := Comment.byteSize_blank (if s.inComment then .block else .code) line
  have hl := length_le_byteSize (Comment.blank (if s.inComment then .block else .code) line).1
  simp only [size, enterLine, h, List.foldr_cons]
  omega

/-- A scanner makes progress unless it is at the end or at an open string. -/
theorem size_next_lt (s : Scanner) :
    s.next.2.size < s.size ∨ s.next.1 = .ok none ∨
      ∃ span, s.next.1 = .error (.openString span) := by
  fun_induction next s with
  | case1 s s' hr hp => simp
  | case2 s s' hr reason pending hp =>
    left
    have := size_skipBlanks_le s
    simp only [size, skipBlanks, hp, List.foldr_cons] at this ⊢
    simp only [s', skipBlanks] at this ⊢
    omega
  | case3 s s' hr line pending hp ih =>
    have h1 := size_skipBlanks_le s
    have h2 : (s'.enterLine line pending).size < s'.size :=
      size_enterLine_lt (by simpa [s', skipBlanks] using hp)
    rcases ih with ih | ih
    · exact .inl (by simp only [s'] at h2 ih ⊢; omega)
    · exact .inr ih
  | case4 s s' hr result after hl =>
    have h1 := size_skipBlanks_le s
    rcases size_lexeme_lt (s := s') with h2 | ⟨span, h2⟩
    · rw [hl] at h2
      exact .inl (Nat.lt_of_lt_of_le h2 h1)
    · rw [hl] at h2
      subst h2
      exact .inr (.inr ⟨span, rfl⟩)

theorem size_lt_of_next {s s' : Scanner} {t : Token} (h : s.next = (.ok (some t), s')) :
    s'.size < s.size := by
  have := size_next_lt s
  rw [h] at this
  simpa using this

/-- Decodes the rest of the source, up to its first failure. -/
def tokens (s : Scanner) : TokenStream :=
  match _h : s.next with
  | (.ok (some t), s') =>
    let later := s'.tokens
    { later with tokens := t :: later.tokens }
  | (.ok none, _) => { tokens := [] }
  | (.error e, _) => { tokens := [], stop := some e }
termination_by s.size
decreasing_by exact size_lt_of_next _h

theorem tokens_eq (s : Scanner) : s.tokens = match s.next with
    | (.ok (some t), s') => ⟨t :: s'.tokens.tokens, s'.tokens.stop⟩
    | (.ok none, _) => ⟨[], none⟩
    | (.error e, _) => ⟨[], some e⟩ := by
  rw [tokens]
  split <;> simp_all

end Scanner

def TokenStream.ofSource (source : Source) : TokenStream := (Scanner.ofSource source).tokens

end Jack

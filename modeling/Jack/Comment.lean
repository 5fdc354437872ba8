import Jack.Text.Utf8

/-!
# Comments

`blank` overwrites the comments of one line with spaces, one space for each byte, so that byte
offsets in the line stay valid: `byteSize_blank` says that the line keeps its size. A block comment
may run on into the next line, and `blank` answers whether it does.
-/

namespace Jack.Comment

open Jack.Text

/-- What the text at some place of a line is part of. -/
inductive Zone
  | code
  | string
  | block
  deriving DecidableEq, Repr

def spaces (n : Nat) : List Char := List.replicate n ' '

/-- Blanks the comments, and tells whether a block comment is still open at the end. -/
def blank : Zone → List Char → List Char × Bool
  | .block, '*' :: '/' :: rest =>
    let (text, openEnd) := blank .code rest
    (spaces 2 ++ text, openEnd)
  | .block, c :: rest =>
    let (text, openEnd) := blank .block rest
    (spaces c.utf8Size ++ text, openEnd)
  | .block, [] => ([], true)
  | .string, c :: rest =>
    let (text, openEnd) := blank (if c = '"' then .code else .string) rest
    (c :: text, openEnd)
  | .code, '/' :: '/' :: rest => (spaces (2 + byteSize rest), false)
  | .code, '/' :: '*' :: rest =>
    let (text, openEnd) := blank .block rest
    (spaces 2 ++ text, openEnd)
  | .code, c :: rest =>
    let (text, openEnd) := blank (if c = '"' then .string else .code) rest
    (c :: text, openEnd)
  | _, [] => ([], false)

theorem byteSize_spaces : ∀ n, byteSize (spaces n) = n
  | 0 => rfl
  | n + 1 => by
    have h : (' ' : Char).utf8Size = 1 := rfl
    rw [spaces, List.replicate_succ, byteSize_cons, h, ← spaces, byteSize_spaces n]; omega

theorem byteSize_blank (zone : Zone) (line : List Char) :
    byteSize (blank zone line).1 = byteSize line := by
  have star : ('*' : Char).utf8Size = 1 := rfl
  have slash : ('/' : Char).utf8Size = 1 := rfl
  fun_induction blank zone line <;>
    simp_all only [byteSize_append, byteSize_cons, byteSize_nil, byteSize_spaces] <;> omega

end Jack.Comment

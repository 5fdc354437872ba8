import Jack.Text.Blank
import Jack.Token

/-!
# Lexemes

A line is cut into lexemes: a quoted string, a single symbol, or a run up to the next boundary.
`cut?` loses no character (`cut?_eq_some`), and a lexeme is never empty. `decode` tells the kind
of token a lexeme is, or why it is none; a number that is too large, or a closed string with a
character no constant can hold, is reported as such whatever stands behind it.
-/

namespace Jack.Lexeme

open Jack.Text

/-- The characters that are tokens on their own. -/
def symbols : List Char :=
  ['{', '}', '(', ')', '[', ']', '.', ',', ';', '+', '-', '*', '/', '&', '|', '<', '>', '=', '~']

def isSymbol (c : Char) : Bool := symbols.contains c

/-- The character ends a word or a number. -/
def endsWord (c : Char) : Bool := isBlank c || isSymbol c || c == '"'

/-- The largest constant the machine can load. -/
def maxConstant : Nat := 32767

/-- The first lexeme of a text and what follows it; a string that is left open is none. -/
def cut? : List Char → Option (List Char × List Char)
  | [] => none
  | c :: rest =>
    if c = '"' then
      match rest.dropWhile (· ≠ '"') with
      | [] => none
      | quote :: after => some (c :: rest.takeWhile (· ≠ '"') ++ [quote], after)
    else if isSymbol c then some ([c], rest)
    else some (c :: rest.takeWhile (!endsWord ·), rest.dropWhile (!endsWord ·))

theorem cut?_eq_some {cs lexeme after : List Char} (h : cut? cs = some (lexeme, after)) :
    lexeme ≠ [] ∧ lexeme ++ after = cs := by
  cases cs with
  | nil => simp [cut?] at h
  | cons c rest =>
    simp only [cut?] at h
    split at h
    · split at h <;> rename_i hd
      · simp at h
      · simp only [Option.some.injEq, Prod.mk.injEq] at h
        obtain ⟨rfl, rfl⟩ := h
        refine ⟨by simp, ?_⟩
        rw [List.append_assoc, List.singleton_append, ← hd, List.cons_append,
          List.takeWhile_append_dropWhile]
    · split at h <;> simp only [Option.some.injEq, Prod.mk.injEq] at h <;> obtain ⟨rfl, rfl⟩ := h
      · simp
      · simp [List.takeWhile_append_dropWhile]

inductive Flaw
  /-- The lexeme belongs to no class of tokens. -/
  | malformed
  /-- An integer above `maxConstant`. -/
  | numberTooLarge
  /-- A string with a character whose code is above `maxConstant`. -/
  | characterTooLarge
  deriving DecidableEq, Repr

def decodeString (rest : List Char) : Except Flaw Token.Kind :=
  let content := rest.takeWhile (· ≠ '"')
  match rest.dropWhile (· ≠ '"') with
  | [] => .error .malformed
  | _ :: after =>
    if content.any (maxConstant < ·.toNat) then .error .characterTooLarge
    else if after.isEmpty then .ok (.string (String.ofList content))
    else .error .malformed

def decodeNumber (digits after : List Char) : Except Flaw Token.Kind :=
  let value := Nat.ofDigitChars 10 digits 0
  if maxConstant < value then .error .numberTooLarge
  else if after.isEmpty then .ok (.integer value)
  else .error .malformed

def decodeWord (word : List Char) : Except Flaw Token.Kind :=
  if word.isEmpty || word.any endsWord then .error .malformed
  else
    let name := String.ofList word
    match Keyword.ofText? name with
    | some k => .ok (.keyword k)
    | none => .ok (.identifier name)

def decode (lexeme : List Char) : Except Flaw Token.Kind :=
  match lexeme with
  | [] => .error .malformed
  | c :: rest =>
    if c = '"' then decodeString rest
    else if c.isDigit then
      decodeNumber (lexeme.takeWhile Char.isDigit) (lexeme.dropWhile Char.isDigit)
    else if isSymbol c && rest.isEmpty then .ok (.symbol c)
    else decodeWord lexeme

end Jack.Lexeme

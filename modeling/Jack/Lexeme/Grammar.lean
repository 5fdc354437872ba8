import Jack.Lexeme
import Jack.Text.Decimal

/-!
# The grammar of lexemes

The classes of tokens, as alternatives that are tried in turn. A reading takes a part in front of
the text. Repetition takes as much as it can; an alternative is tried, on the same text, if those
before it fail, and the first that does not fail is settled on. Only then the text has to be at its
end.

If all alternatives fail, their failures are merged. How is left open, as long as no failure is
hidden by that of an alternative which could not take the first character (`Merging`): such an
alternative may then be left out (`orElse_of_refuses_left`, `orElse_of_refuses_right`).
-/

namespace Jack.Lexeme

open Text
open Token (Kind)

/-- Why a text cannot be read, and where: places are counted by the characters left. -/
inductive Failure
  /-- The next character does not fit, or is missing. -/
  | unexpected (left : Nat)
  /-- There is a flaw in what was read from `start` to `stop`. -/
  | flawed (start stop : Nat) (flaw : Flaw)

namespace Failure

/-- A reading that begins with `n` characters left can fail so, if it takes one of them before it
finds a flaw. -/
def Behind (n : Nat) : Failure → Prop
  | unexpected left => left ≤ n
  | flawed start stop _ => start ≤ n ∧ stop < n

theorem Behind.mono {n n' : Nat} {e : Failure} (h : e.Behind n) (hle : n ≤ n') : e.Behind n' := by
  cases e with
  | unexpected left => exact Nat.le_trans h hle
  | flawed start stop flaw => exact ⟨Nat.le_trans h.1 hle, Nat.lt_of_lt_of_le h.2 hle⟩

/-- What a text is told to be that fails so. -/
def flaw : Failure → Flaw
  | unexpected _ => .malformed
  | flawed _ _ flaw => flaw

/-- Where a reading found out. -/
def place : Failure → Nat
  | unexpected left => left
  | flawed _ stop _ => stop

end Failure

/-- How the failures of two alternatives become one: an alternative that could not take the first
character hides nothing. -/
structure Merging where
  merge : Failure → Failure → Failure
  merge_unexpected : ∀ {n e}, e.Behind n → merge e (.unexpected n) = e
  unexpected_merge : ∀ {n e}, e.Behind n → merge (.unexpected n) e = e

/-- The failure that was found out furthest in the text is kept. -/
def Merging.furthest : Merging where
  merge e e' := if e'.place < e.place then e' else e
  merge_unexpected {n e} h := by
    have hplace : e.place ≤ n := by
      cases e with
      | unexpected left => exact h
      | flawed start stop flaw => exact Nat.le_of_lt h.2
    exact if_neg (Nat.not_lt.2 hplace)
  unexpected_merge {n e} h := by
    cases e with
    | unexpected left =>
      rcases Nat.lt_or_eq_of_le h with hlt | rfl
      · exact if_pos hlt
      · exact ite_self _
    | flawed start stop flaw => exact if_pos h.2

/-- Reads a part in front of a text, and answers what it stands for and the text behind it. -/
abbrev Reading (α : Type) := List Char → Except Failure (α × List Char)

namespace Reading

variable {α β : Type}

def refuse (text : List Char) : Except Failure α := .error (.unexpected text.length)

/-- A character that passes the test. -/
def one (p : Char → Bool) : Reading Char
  | [] => refuse []
  | c :: rest => if p c then .ok (c, rest) else refuse (c :: rest)

/-- As many characters as pass the test. -/
def many (p : Char → Bool) : Reading (List Char)
  | [] => .ok ([], [])
  | c :: rest =>
    if p c then do
      let (cs, after) ← many p rest
      return (c :: cs, after)
    else .ok ([], c :: rest)

def followedBy (first : Reading α) (second : Reading β) : Reading (α × β) := fun text => do
  let (a, rest) ← first text
  let (b, after) ← second rest
  return ((a, b), after)

/-- Goes on with what is read, which may turn out to have a flaw. -/
def check (reading : Reading α) (f : α → Except Flaw β) : Reading β := fun text => do
  let (a, rest) ← reading text
  match f a with
  | .ok b => return (b, rest)
  | .error flaw => .error (.flawed text.length rest.length flaw)

def orElse (m : Merging) (first second : Reading α) : Reading α := fun text =>
  match first text with
  | .ok result => .ok result
  | .error e =>
    match second text with
    | .ok result => .ok result
    | .error e' => .error (m.merge e e')

def toEnd (reading : Reading α) : Reading α := fun text => do
  let (a, rest) ← reading text
  if rest.isEmpty then return (a, rest) else refuse rest

theorem many_eq (p : Char → Bool) :
    ∀ text : List Char, many p text = .ok (text.takeWhile p, text.dropWhile p)
  | [] => rfl
  | c :: rest => by
    rw [many, List.takeWhile_cons, List.dropWhile_cons]
    split
    · rw [many_eq p rest]
      rfl
    · rfl

/-! ### Readings that do not get past the first character -/

/-- What is read has at least `k` characters, and a failure does not lie in front of it. -/
def Takes (k : Nat) (reading : Reading α) : Prop :=
  ∀ text, match reading text with
    | .ok (_, rest) => rest.length + k ≤ text.length
    | .error e => e.Behind text.length

/-- The text does not begin with a character that the reading begins with. -/
def Refuses (reading : Reading α) (text : List Char) : Prop := reading text = refuse text

theorem refuses_one {p : Char → Bool} {text : List Char} (h : ∀ c ∈ text.head?, p c = false) :
    Refuses (one p) text := by
  cases text with
  | nil => rfl
  | cons c rest => exact if_neg (by simp [h c rfl])

theorem takes_one (p : Char → Bool) : Takes 1 (one p) := by
  intro text
  cases text with
  | nil => exact Nat.le_refl _
  | cons c rest =>
    rw [one]
    split <;> rename_i h <;> split at h <;> cases h <;> exact Nat.le_refl _

theorem takes_many (p : Char → Bool) : Takes 0 (many p) := by
  intro text
  rw [many_eq]
  exact (text.dropWhile_suffix p).length_le

section Takes

variable {first : Reading α} {second : Reading β} {reading : Reading α} {text : List Char}
  {k k' : Nat}

theorem Takes.followedBy (h : Takes k first) (h' : Takes k' second) :
    Takes (k' + k) (first.followedBy second) := by
  intro text
  have hfirst := h text
  unfold Reading.followedBy
  generalize first text = result at hfirst ⊢
  rcases result with e | ⟨a, rest⟩
  · exact hfirst
  · have hsecond := h' rest
    simp only [bind, Except.bind]
    generalize second rest = result at hsecond ⊢
    rcases result with e | ⟨b, after⟩
    · exact hsecond.mono (Nat.le_of_add_right_le hfirst)
    · refine Nat.le_trans ?_ hfirst
      rw [← Nat.add_assoc]
      exact Nat.add_le_add_right hsecond k

theorem Takes.check (h : Takes k reading) (hk : 0 < k) (f : α → Except Flaw β) :
    Takes k (reading.check f) := by
  intro text
  have hreading := h text
  unfold Reading.check
  generalize reading text = result at hreading ⊢
  rcases result with e | ⟨a, rest⟩
  · exact hreading
  · simp only [bind, Except.bind]
    rcases f a with flaw | b
    · exact ⟨Nat.le_refl _, Nat.lt_of_lt_of_le (Nat.lt_add_of_pos_right hk) hreading⟩
    · exact hreading

theorem Refuses.followedBy (h : Refuses first text) : Refuses (first.followedBy second) text := by
  unfold Refuses Reading.followedBy
  rw [h]
  rfl

theorem Refuses.check (h : Refuses reading text) (f : α → Except Flaw β) :
    Refuses (reading.check f) text := by
  unfold Refuses Reading.check
  rw [h]
  rfl

end Takes

section OrElse

variable {m : Merging} {first second : Reading α} {text : List Char} {k : Nat}

theorem Refuses.orElse (h : Refuses first text) (h' : Refuses second text) :
    Refuses (first.orElse m second) text := by
  unfold Refuses Reading.orElse
  rw [h, h']
  exact congrArg Except.error (m.merge_unexpected (Nat.le_refl _))

/-- Where the result on a text is that of a reading, the failure is too. -/
theorem Takes.behind {reading reading' : Reading α} (h : Takes k reading')
    (hsame : reading text = reading' text) {e : Failure} (he : reading text = .error e) :
    e.Behind text.length := by
  have hreading := h text
  rwa [← hsame, he] at hreading

/-- An alternative that refuses the text may be left out. -/
theorem orElse_of_refuses_left {reading : Reading α} (h : Refuses first text)
    (hsecond : second text = reading text) (htakes : Takes k reading) :
    first.orElse m second text = reading text := by
  rw [← hsecond]
  unfold Reading.orElse
  rw [h]
  rcases hresult : second text with e | result
  · exact congrArg Except.error (m.unexpected_merge (htakes.behind hsecond hresult))
  · rfl

theorem orElse_of_refuses_right {reading : Reading α} (h : Refuses second text)
    (hfirst : first text = reading text) (htakes : Takes k reading) :
    first.orElse m second text = reading text := by
  rw [← hfirst]
  unfold Reading.orElse
  rw [h]
  rcases hresult : first text with e | result
  · exact congrArg Except.error (m.merge_unexpected (htakes.behind hfirst hresult))
  · rfl

end OrElse

end Reading

/-! ## The alternatives -/

namespace Grammar

open Reading

/-- Whatever stands between two quotes; a constant has to hold the code of every character. -/
def stringConstant : Reading Kind :=
  ((one (· = '"')).followedBy ((many (· ≠ '"')).followedBy (one (· = '"')))).check
    fun (_, content, _) =>
      if content.all (·.toNat ≤ maxConstant) then .ok (.string (String.ofList content))
      else .error .characterTooLarge

/-- The digits are read as a number of sixteen bits, which has to be a constant. -/
def integerConstant : Reading Kind :=
  ((one Char.isDigit).followedBy (many Char.isDigit)).check fun (c, cs) =>
    match (decimalBelow? UInt16.size (c :: cs)).filter (· ≤ maxConstant) with
    | some value => .ok (.integer value)
    | none => .error .numberTooLarge

def symbol : Reading Kind := (one isSymbol).check fun c => .ok (.symbol c)

def word : Reading Kind :=
  ((one fun c => !c.isDigit && !endsWord c).followedBy (many (!endsWord ·))).check fun (c, cs) =>
    let name := String.ofList (c :: cs)
    .ok (match Keyword.ofText? name with
      | some k => .keyword k
      | none => .identifier name)

def alternatives (m : Merging) : Reading Kind :=
  ((stringConstant.orElse m integerConstant).orElse m symbol).orElse m word

/-- The kind of token that the whole text is, or why it is none. -/
def classify (m : Merging) (text : List Char) : Except Flaw Kind :=
  match (alternatives m).toEnd text with
  | .ok (kind, _) => .ok kind
  | .error e => .error e.flaw

end Grammar

end Jack.Lexeme

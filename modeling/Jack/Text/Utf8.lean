/-!
# Positions in UTF-8 text

Spans count bytes, reports count characters. `byteSize` is additive over concatenation, so the
byte offset of a character is the size of what stands before it. `charOffset` goes back: at an
offset inside a character, or past the end, it answers the number of characters.
-/

namespace Jack.Text

/-- The number of bytes of the UTF-8 encoding. -/
def byteSize (cs : List Char) : Nat := cs.foldr (·.utf8Size + ·) 0

@[simp] theorem byteSize_nil : byteSize [] = 0 := rfl

@[simp] theorem byteSize_cons (c : Char) (cs : List Char) :
    byteSize (c :: cs) = c.utf8Size + byteSize cs := rfl

@[simp] theorem byteSize_append (cs ds : List Char) :
    byteSize (cs ++ ds) = byteSize cs + byteSize ds := by
  induction cs with
  | nil => simp
  | cons c cs ih => simp only [List.cons_append, byteSize_cons, ih, Nat.add_assoc]

theorem length_le_byteSize : ∀ cs : List Char, cs.length ≤ byteSize cs
  | [] => Nat.le_refl _
  | c :: cs => by
    have := length_le_byteSize cs
    have := c.utf8Size_pos
    simp only [List.length_cons, byteSize_cons]; omega

/-- The number of characters that fill exactly the first `bytes` bytes, counted onto `seen`. -/
def charsBefore? (seen bytes : Nat) : List Char → Option Nat
  | [] => if bytes = 0 then some seen else none
  | c :: cs =>
    if bytes = 0 then some seen
    else if c.utf8Size ≤ bytes then charsBefore? (seen + 1) (bytes - c.utf8Size) cs
    else none

def charOffset (cs : List Char) (bytes : Nat) : Nat :=
  (charsBefore? 0 bytes cs).getD cs.length

theorem charsBefore?_append (ds : List Char) :
    ∀ (cs : List Char) (seen : Nat),
      charsBefore? seen (byteSize cs) (cs ++ ds) = some (seen + cs.length)
  | [], seen => by cases ds <;> simp [charsBefore?]
  | c :: cs, seen => by
    have := c.utf8Size_pos
    simp only [List.cons_append, charsBefore?, byteSize_cons, List.length_cons]
    rw [if_neg (by omega), if_pos (by omega), Nat.add_sub_cancel_left,
      charsBefore?_append ds cs (seen + 1)]
    congr 1; omega

/-- The byte offset of a character is undone. -/
theorem charOffset_append (cs ds : List Char) :
    charOffset (cs ++ ds) (byteSize cs) = cs.length := by
  simp [charOffset, charsBefore?_append]

end Jack.Text

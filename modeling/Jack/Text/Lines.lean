/-!
# Lines

`linesEnding p` cuts a text after each element that `p` marks as the end of a line and keeps the
marks, so the lines joined give the text again; only the last line may lack its mark.
-/

namespace Jack.Text

variable {α : Type}

/-- Cuts after each element for which `p` holds. -/
def linesEnding (p : α → Bool) (text : List α) : List (List α) :=
  text.foldr (fun x lines =>
    if p x then [x] :: lines
    else match lines with
      | [] => [[x]]
      | line :: rest => (x :: line) :: rest) []

@[simp] theorem flatten_linesEnding (p : α → Bool) :
    ∀ text : List α, (linesEnding p text).flatten = text
  | [] => rfl
  | x :: text => by
    have ih := flatten_linesEnding p text
    simp only [linesEnding, List.foldr_cons] at ih ⊢
    split
    · simp [ih]
    · split <;> rename_i h <;> rw [h] at ih <;> simp_all

theorem ne_nil_of_mem_linesEnding (p : α → Bool) :
    ∀ {text line : List α}, line ∈ linesEnding p text → line ≠ []
  | x :: text, line, h => by
    have ih := @ne_nil_of_mem_linesEnding p text
    simp only [linesEnding, List.foldr_cons] at ih h
    split at h
    · rcases List.mem_cons.1 h with rfl | h
      · simp
      · exact ih h
    · split at h <;> rename_i hl
      · simp_all
      · rcases List.mem_cons.1 h with rfl | h
        · simp
        · exact ih (by rw [hl]; exact List.mem_cons_of_mem _ h)

end Jack.Text

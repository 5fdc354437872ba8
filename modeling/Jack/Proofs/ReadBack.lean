import Jack.Proofs.Sizes

/-!
# Reading compiled text back

The text of a class is its instructions, one on a line, and nothing else: no name or number in it
can be taken for the end of a word or of a line. So the lines of the text are the printed
instructions (`textLines_listing`), each is read as the instruction that it was printed from, and the
machine loads the program that was compiled (`parse?_compileText`).
-/

namespace Jack

open Text

namespace Text

/-- The line without the newline that ends it, nor a carriage return in front of that. -/
def withoutEnd (line : List Char) : List Char :=
  match line.reverse with
  | '\n' :: '\r' :: rest => rest.reverse
  | '\n' :: rest => rest.reverse
  | _ => line

/-- The lines of a text. Behind the last newline there is a line only if there is text. -/
def textLines (text : String) : List String :=
  (linesEnding (· = '\n') text.toList).map fun line => String.ofList (withoutEnd line)

theorem linesEnding_append_cons {α : Type} {p : α → Bool} {x : α} (hx : p x = true) (rest : List α) :
    ∀ {line : List α}, (∀ y ∈ line, p y = false) →
      linesEnding p (line ++ x :: rest) = (line ++ [x]) :: linesEnding p rest
  | [], _ => by simp [linesEnding, hx]
  | y :: line, h => by
    have ih := linesEnding_append_cons hx rest fun z hz => h z (List.mem_cons_of_mem _ hz)
    have hy := h y (by simp)
    unfold linesEnding at ih ⊢
    rw [List.cons_append, List.foldr_cons, ih]
    simp [hy]

/-- A carriage return is a blank, so a line that ends in a word is only stripped of its newline. -/
theorem withoutEnd_concat {line : List Char} {c : Char} (hc : isBlank c = false) :
    withoutEnd (line ++ [c] ++ ['\n']) = line ++ [c] := by
  have hreturn : c ≠ '\r' := by
    rintro rfl
    exact absurd hc (by decide)
  simp only [withoutEnd, List.reverse_append, List.reverse_singleton, List.cons_append]
  split <;> simp_all

/-- Words with blanks between them end in a word. -/
theorem exists_intercalate_eq_concat {ws : List (List Char)} (hne : ws ≠ [])
    (h : ∀ w ∈ ws, IsWord w) : ∃ cs c, [' '].intercalate ws = cs ++ [c] ∧ isBlank c = false := by
  induction ws with
  | nil => exact absurd rfl hne
  | cons w ws ih =>
    cases ws with
    | nil =>
      obtain ⟨hw, hblank⟩ := h w (by simp)
      obtain ⟨cs, c, rfl⟩ := (List.eq_nil_or_concat w).resolve_left hw
      rw [List.concat_eq_append] at hblank ⊢
      exact ⟨cs, c, List.intercalate_singleton, hblank c (by simp)⟩
    | cons w' ws =>
      obtain ⟨cs, c, hcs, hc⟩ := ih (by simp) fun w'' h'' => h w'' (List.mem_cons_of_mem _ h'')
      refine ⟨w ++ [' '] ++ cs, c, ?_, hc⟩
      rw [List.intercalate_cons_cons, hcs]
      simp

end Text

namespace Instruction

variable {i : Instruction} {code : List Instruction}

/-- The text of an instruction does not end in a blank. -/
theorem exists_text_eq_concat (h : i.Named) :
    ∃ cs c, i.text.toList = cs ++ [c] ∧ isBlank c = false := by
  have hne : i.words.map String.toList ≠ [] := by cases i <;> simp [words]
  rw [toList_text]
  exact exists_intercalate_eq_concat hne (isWord_of_mem_map_words h)

/-- The lines of a printed program are its instructions. -/
theorem textLines_listing (h : ∀ i ∈ code, i.Named) :
    textLines (listing code) = code.map text := by
  rw [textLines, Machine.toList_listing]
  induction code with
  | nil => rfl
  | cons i code ih =>
    have hline := newline_notMem_text (h i (by simp))
    obtain ⟨cs, c, htext, hc⟩ := exists_text_eq_concat (h i (by simp))
    rw [List.flatMap_cons, List.append_assoc, List.singleton_append,
      linesEnding_append_cons (by simp) _ (by simpa using hline), List.map_cons, List.map_cons,
      ih fun j hj => h j (List.mem_cons_of_mem _ hj), htext, withoutEnd_concat hc, ← htext,
      String.ofList_toList]

end Instruction

namespace Machine

open Syntax Instruction

/-- The text that a class compiles to is read back line by line as the instructions that it was
compiled to, and loaded with each of them at its place. The length of the source is that of a text
whose bytes a signed word can count. -/
theorem parse?_compileText {source text : String}
    (hsize : 2 * byteSize source.toList < UInt64.size) (h : compileText source = .ok text) :
    ∃ code, compileClass (.ofString source) = .ok code ∧
      (textLines text).map parse? = code.map some ∧
      ∃ m, load text = .ok m ∧ m.program.code.toList = code := by
  obtain ⟨k, hk, rfl⟩ := compileText_eq_ok_iff.1 h
  have hnamed := k.named hk.legal
  have hfits := hk.fits hsize
  refine ⟨k.code, hk.compileClass_eq, ?_, _, (load_listing hnamed).2 ⟨hfits, rfl⟩, ?_⟩
  · rw [textLines_listing hnamed, List.map_map, List.map_congr_left]
    intro i hi
    exact (ofLine?_text (hnamed i hi)).trans (if_pos (hfits i hi))
  · exact congrArg Array.toList Program.code_ofInstructions

/-! ## Names in any script -/

def measureSource : String := "class Maß { function int größe() { return 7; } }"

def measureClass : ClassDeclaration where
  name := "Maß"
  declarations := []
  subroutines := [{
    kind := .function
    returnType := some .int
    name := "größe"
    parameters := []
    locals := []
    body := .cons (.giveBack (some (.term (.integer 7)))) .nil }]

theorem measureClass_compiles : measureClass.Compiles (.ofString measureSource) := by
  decide +kernel

theorem parse?_compileText_measure : ∃ code, compileClass (.ofString measureSource) = .ok code ∧
    (textLines (listing measureClass.code)).map parse? = code.map some ∧
    ∃ m, load (listing measureClass.code) = .ok m ∧ m.program.code.toList = code :=
  parse?_compileText (by decide +kernel)
    (compileText_eq_ok_iff.2 ⟨measureClass, measureClass_compiles, rfl⟩)

end Machine

end Jack

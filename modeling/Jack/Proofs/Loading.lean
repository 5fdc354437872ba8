import Jack.Machine.State

/-!
# Loading what was printed

The text of a program is read back as the program it was printed from (`load_listing`), if the names
in it are words and every number is small enough to be read.
-/

namespace Jack

open Text

/-! ## Words in a line -/

/-- There is something in the text, and no blank. -/
def IsWord (w : List Char) : Prop := w ≠ [] ∧ ∀ c ∈ w, isBlank c = false

instance (w : List Char) : Decidable (IsWord w) :=
  decidable_of_iff ((!w.isEmpty && w.all (!isBlank ·)) = true) (by simp [IsWord])

namespace Text

theorem words_of_isWord {w : List Char} (h : IsWord w) : words w = [w] := by
  rw [words, List.splitOnP_eq_singleton h.2]
  simp [h.1]

theorem words_cons_of_isWord {w rest : List Char} (h : IsWord w) :
    words (w ++ ' ' :: rest) = w :: words rest := by
  rw [words, List.splitOnP_append_cons_of_forall_mem h.2 ' ' (by decide), words]
  simp [h.1]

/-- Words with blanks between them are read as they are. -/
theorem words_intercalate {ws : List (List Char)} (h : ∀ w ∈ ws, IsWord w) :
    words ([' '].intercalate ws) = ws := by
  induction ws with
  | nil => rfl
  | cons w ws ih =>
    have hw := h w (by simp)
    cases ws with
    | nil =>
      rw [List.intercalate_singleton]
      exact words_of_isWord hw
    | cons w' ws =>
      rw [List.intercalate_cons_cons, List.append_assoc, List.singleton_append,
        words_cons_of_isWord hw, ih fun w'' h'' => h w'' (List.mem_cons_of_mem _ h'')]

theorem trimStart_cons {c : Char} {cs : List Char} (h : isBlank c = false) :
    trimStart (c :: cs) = c :: cs := by
  rw [trimStart, List.dropWhile_cons_of_neg (by simp [h])]

theorem trimEnd_concat {c : Char} {cs : List Char} (h : isBlank c = false) :
    trimEnd (cs ++ [c]) = cs ++ [c] := by
  rw [trimEnd, List.reverse_append, List.reverse_singleton, List.singleton_append,
    List.dropWhile_cons_of_neg (by simp [h]), List.reverse_cons, List.reverse_reverse]

/-- Words with blanks between them begin and end with a word. -/
theorem trim_intercalate {ws : List (List Char)} (h : ∀ w ∈ ws, IsWord w) :
    trim ([' '].intercalate ws) = [' '].intercalate ws := by
  rcases List.eq_nil_or_concat ws with rfl | ⟨init, last, rfl⟩
  · rfl
  have hlast := h last (by simp)
  obtain ⟨cs, c, rfl⟩ := (List.eq_nil_or_concat last).resolve_left hlast.1
  have hend : ∃ ds, [' '].intercalate (init ++ [cs ++ [c]]) = ds ++ [c] := by
    clear h
    induction init with
    | nil => exact ⟨cs, List.intercalate_singleton⟩
    | cons w init ih =>
      obtain ⟨ds, hds⟩ := ih
      refine ⟨w ++ [' '] ++ ds, ?_⟩
      rw [List.cons_append, List.intercalate_cons_of_ne_nil (by simp), hds]
      simp
  obtain ⟨ds, hds⟩ := hend
  have hstart : trimStart (ds ++ [c]) = ds ++ [c] := by
    rw [← hds]
    cases init with
    | nil =>
      rw [List.nil_append, List.intercalate_singleton]
      cases cs with
      | nil => exact trimStart_cons (hlast.2 c (by simp))
      | cons d cs => exact trimStart_cons (hlast.2 d (by simp))
    | cons w init =>
      have hw := h w (by simp)
      rw [List.cons_append, List.intercalate_cons_of_ne_nil (by simp)]
      cases w with
      | nil => exact absurd rfl hw.1
      | cons d w => exact trimStart_cons (hw.2 d (by simp))
  rw [List.concat_eq_append, List.concat_eq_append, hds, trim, hstart,
    trimEnd_concat (hlast.2 c (by simp))]

theorem newline_notMem_intercalate {ws : List (List Char)} (h : ∀ w ∈ ws, IsWord w) :
    ∀ c ∈ [' '].intercalate ws, c ≠ '\n' := by
  rintro c hc rfl
  induction ws with
  | nil => simp at hc
  | cons w ws ih =>
    have hw : '\n' ∉ w := fun hmem => absurd ((h w (by simp)).2 _ hmem) (by decide)
    cases ws with
    | nil =>
      rw [List.intercalate_singleton] at hc
      exact hw hc
    | cons w' ws =>
      rw [List.intercalate_cons_cons, List.append_assoc, List.mem_append, List.mem_append] at hc
      rcases hc with hc | hc | hc
      · exact hw hc
      · simp at hc
      · exact ih (fun w'' h'' => h w'' (List.mem_cons_of_mem _ h'')) hc

end Text

/-! ## Instructions -/

namespace Instruction

/-- The name that an instruction has in it. -/
def name? : Instruction → Option String
  | .label name | .goto name | .ifGoto name | .function name _ | .call name _ => some name
  | .push .. | .pop .. | .command _ => none

/-- The number that an instruction has in it. -/
def number? : Instruction → Option Nat
  | .push _ n | .pop _ n | .function _ n | .call _ n => some n
  | .command _ | .label _ | .goto _ | .ifGoto _ => none

/-- The name is a word. -/
def Named (i : Instruction) : Prop := ∀ name ∈ i.name?, IsWord name.toList

/-- The number can be read. -/
def Fits (i : Instruction) : Prop := ∀ n ∈ i.number?, n < indexBound

instance (i : Instruction) : Decidable i.Fits :=
  inferInstanceAs (Decidable (∀ n ∈ i.number?, n < indexBound))

variable {i : Instruction}

theorem isWord_repr (n : Nat) : IsWord n.repr.toList :=
  ⟨by rw [toList_repr]; exact Nat.toDigits_ne_nil,
    fun c hc => isBlank_of_isDigit (isDigit_of_mem_repr hc)⟩

theorem isWord_segment (segment : Segment) : IsWord segment.text.toList := by
  cases segment <;> decide

theorem isWord_command (action : Command) : IsWord action.text.toList := by
  cases action <;> decide

/-- The words of an instruction are words, if its name is one. -/
theorem isWord_of_mem_words (h : i.Named) : ∀ w ∈ i.words, IsWord w.toList := by
  have hname := fun name hn => h name hn
  cases i with
  | push segment n | pop segment n =>
    simp only [words, List.forall_mem_cons]
    exact ⟨by decide, isWord_segment segment, isWord_repr n, by simp⟩
  | command action => simpa [words] using isWord_command action
  | function name n | call name n =>
    simp only [words, List.forall_mem_cons]
    exact ⟨by decide, hname name rfl, isWord_repr n, by simp⟩
  | label name | goto name | ifGoto name =>
    simp only [words, List.forall_mem_cons]
    exact ⟨by decide, hname name rfl, by simp⟩

theorem isWord_of_mem_map_words (h : i.Named) : ∀ w ∈ i.words.map String.toList, IsWord w :=
  List.forall_mem_map.2 (isWord_of_mem_words h)

theorem toList_text (i : Instruction) :
    i.text.toList = [' '].intercalate (i.words.map String.toList) := by
  rw [text, String.toList_intercalate]
  rfl

theorem newline_notMem_text (h : i.Named) : ∀ c ∈ i.text.toList, c ≠ '\n' := by
  rw [toList_text]
  exact newline_notMem_intercalate (isWord_of_mem_map_words h)

theorem ofWords?_words (i : Instruction) : ofWords? i.words = if i.Fits then some i else none := by
  have hfits : ∀ n, i.number? = some n → (i.Fits ↔ n < indexBound) := by
    intro n hn
    simp [Fits, hn]
  cases i with
  | command action => simp [words, ofWords?, Fits, number?]
  | label name | goto name | ifGoto name => simp [words, ofWords?, Fits, number?]
  | push segment n | pop segment n | function name n | call name n =>
    simp only [hfits n rfl, words, ofWords?, decimalBelow?_repr_eq]
    split <;> simp

theorem ofLine?_text (h : i.Named) : ofLine? i.text.toList = if i.Fits then some i else none := by
  rw [ofLine?, toList_text, words_intercalate (isWord_of_mem_map_words h), List.map_map]
  simpa [Function.comp_def] using ofWords?_words i

end Instruction

/-! ## Programs -/

namespace Machine

open Instruction

variable {code : List Instruction} {m : Machine}

theorem toList_listing (code : List Instruction) :
    (listing code).toList = code.flatMap fun i => i.text.toList ++ ['\n'] := by
  rw [listing, String.toList_join, List.flatMap_map]
  simp [line]

/-- The lines of a printed program are its instructions. -/
theorem lines_listing (h : ∀ i ∈ code, i.Named) :
    Program.lines (listing code) = code.map fun i => i.text.toList := by
  rw [Program.lines, toList_listing]
  induction code with
  | nil => rfl
  | cons i code ih =>
    have hi : i.Named := h i (by simp)
    have hwords := isWord_of_mem_map_words hi
    have hline := newline_notMem_text hi
    have htrim := trim_intercalate hwords
    rw [← toList_text] at htrim
    have hne : i.text.toList ≠ [] := by
      intro hnil
      have hw := words_intercalate hwords
      rw [← toList_text, hnil] at hw
      cases i <;> simp [Instruction.words, Text.words] at hw
    rw [List.flatMap_cons, List.append_assoc, List.singleton_append,
      List.splitOnP_append_cons_of_forall_mem (by simpa using hline) '\n' (by simp), List.map_cons,
      htrim, List.filter_cons_of_pos (by simpa using hne), List.map_cons,
      ih fun j hj => h j (List.mem_cons_of_mem _ hj)]

/-- What can be read back is read back. -/
theorem mapM_map_eq_ok {α β ε : Type} {read : β → Except ε α} {print : α → β} {good : α → Prop}
    {xs ys : List α} (hg : ∀ x ∈ xs, good x → read (print x) = .ok x)
    (hb : ∀ x ∈ xs, ¬ good x → ∃ e, read (print x) = .error e) :
    (xs.map print).mapM read = .ok ys ↔ (∀ x ∈ xs, good x) ∧ ys = xs := by
  induction xs generalizing ys with
  | nil => simp [pure, Except.pure, eq_comm]
  | cons x xs ih =>
    have ih' := fun {ys} => @ih ys (fun y hy => hg y (List.mem_cons_of_mem _ hy))
      fun y hy => hb y (List.mem_cons_of_mem _ hy)
    rw [List.map_cons, List.mapM_cons, List.forall_mem_cons]
    by_cases hx : good x
    · rw [hg x (by simp) hx]
      cases hrest : (xs.map print).mapM read with
      | error e =>
        have hnone : ¬ ∀ y ∈ xs, good y := fun hall => by
          rw [ih'.2 ⟨hall, rfl⟩] at hrest
          simp at hrest
        simp [bind, Except.bind, hnone]
      | ok rest =>
        obtain ⟨hall, rfl⟩ := ih'.1 hrest
        simp only [bind, Except.bind, pure, Except.pure, Except.ok.injEq]
        exact ⟨fun h => ⟨⟨hx, hall⟩, h.symm⟩, fun h => h.2.symm⟩
    · obtain ⟨e, he⟩ := hb x (by simp) hx
      simp [he, hx, bind, Except.bind]

theorem instructions_listing (h : ∀ i ∈ code, i.Named) {code' : List Instruction} :
    Program.instructions (listing code) = .ok code' ↔ (∀ i ∈ code, i.Fits) ∧ code' = code := by
  rw [Program.instructions, lines_listing h]
  refine mapM_map_eq_ok (fun i hi hfits => ?_) fun i hi hfits => ?_
  · simp only [ofLine?_text (h i hi), if_pos hfits]
  · simp only [ofLine?_text (h i hi), if_neg hfits]
    exact ⟨_, rfl⟩

/-- A printed program is loaded as it was, if its numbers can be read. -/
theorem load_listing (h : ∀ i ∈ code, i.Named) :
    load (listing code) = .ok m ↔
      (∀ i ∈ code, i.Fits) ∧ m = ofProgram (.ofInstructions code) := by
  have hread := fun {code'} => @instructions_listing code h code'
  rw [load, Program.ofText]
  cases hi : Program.instructions (listing code) with
  | error e =>
    have hfits : ¬ ∀ i ∈ code, i.Fits := fun hall => by
      rw [hread.2 ⟨hall, rfl⟩] at hi
      simp at hi
    simp [hfits, Functor.map, Except.map]
  | ok code' =>
    obtain ⟨hall, rfl⟩ := hread.1 hi
    simp only [Functor.map, Except.map, Except.ok.injEq]
    exact ⟨fun heq => ⟨hall, heq.symm⟩, fun heq => heq.2.symm⟩

end Machine

end Jack

import Jack.Proofs.FullSinks
import Jack.Proofs.ReadBack

/-!
# Instructions and their lines

What is read from a line has words for names and numbers that can be held, however the line is
written (`wellFormed_of_parse?`), and such an instruction is what its text is read as. So the text
tells the instruction, and a program that has been read from lines is written the same by every sink
and read again as it was (`parse?_text_round_trip`).
-/

namespace Jack

open Text

namespace Text

variable {α : Type} {p : α → Bool}

/-- The pieces between separators have no separator in them. -/
theorem eq_false_of_mem_splitOnP {xs piece : List α} {x : α} (h : piece ∈ xs.splitOnP p)
    (hx : x ∈ piece) : p x = false := by
  induction xs generalizing piece with
  | nil =>
    rw [List.splitOnP_nil, List.mem_singleton] at h
    simp [h] at hx
  | cons y xs ih =>
    rw [List.splitOnP_cons_eq_if_modifyHead] at h
    split at h
    · rcases List.mem_cons.1 h with rfl | h
      · simp at hx
      · exact ih h hx
    · rename_i hy
      obtain ⟨first, rest, hpieces⟩ := List.exists_cons_of_ne_nil (List.splitOnP_ne_nil p xs)
      rw [hpieces, List.modifyHead_cons, List.mem_cons] at h
      rw [hpieces] at ih
      rcases h with rfl | h
      · rcases List.mem_cons.1 hx with rfl | hx
        · simpa using hy
        · exact ih List.mem_cons_self hx
      · exact ih (List.mem_cons_of_mem _ h) hx

theorem isWord_of_words {cs w : List Char} (h : w ∈ words cs) : IsWord w :=
  ⟨ne_nil_of_mem_words h, fun _ hc => eq_false_of_mem_splitOnP (List.mem_filter.1 h).1 hc⟩

theorem lt_of_decimalBelow? {bound n : Nat} {cs : List Char} (h : decimalBelow? bound cs = some n) :
    n < bound := by
  simp only [decimalBelow?] at h
  split at h
  · simp at h
  · split at h
    · rename_i hlt
      rwa [← Option.some.inj h]
    · simp at h

end Text

namespace Instruction

variable {i j : Instruction}

/-- The name of the instruction is a word, and its number one that an instruction can hold. -/
structure WellFormed (i : Instruction) : Prop where
  named : i.Named
  fits : i.Fits

theorem wellFormed_of_words {ws : List String} (hws : ∀ w ∈ ws, IsWord w.toList)
    (h : ofWords? ws = some i) : i.WellFormed := by
  match ws with
  | [] => simp [ofWords?] at h
  | [action] =>
    obtain ⟨c, -, rfl⟩ := Option.map_eq_some_iff.1 h
    exact ⟨by simp [Named, name?], by simp [Fits, number?]⟩
  | [action, name] =>
    have hname : IsWord name.toList := hws name (by simp)
    simp only [ofWords?] at h
    split_ifs at h <;> obtain rfl := Option.some.inj h <;>
      exact ⟨by simpa [Named, name?] using hname, by simp [Fits, number?]⟩
  | [action, place, number] =>
    have hplace : IsWord place.toList := hws place (by simp)
    simp only [ofWords?] at h
    obtain ⟨n, hn, h⟩ := Option.bind_eq_some_iff.1 h
    have hlt := lt_of_decimalBelow? hn
    split_ifs at h
    · obtain ⟨segment, -, rfl⟩ := Option.map_eq_some_iff.1 h
      exact ⟨by simp [Named, name?], by simpa [Fits, number?] using hlt⟩
    · obtain ⟨segment, -, rfl⟩ := Option.map_eq_some_iff.1 h
      exact ⟨by simp [Named, name?], by simpa [Fits, number?] using hlt⟩
    all_goals
      obtain rfl := Option.some.inj h
      exact ⟨by simpa [Named, name?] using hplace, by simpa [Fits, number?] using hlt⟩
  | _ :: _ :: _ :: _ :: _ => simp [ofWords?] at h

theorem wellFormed_of_parse? {line : String} (h : parse? line = some i) : i.WellFormed := by
  refine wellFormed_of_words (fun w hw => ?_) h
  obtain ⟨cs, hcs, rfl⟩ := List.mem_map.1 hw
  rw [String.toList_ofList]
  exact isWord_of_words hcs

theorem parse?_text (h : i.WellFormed) : parse? i.text = some i := by
  rw [parse?, ofLine?_text h.named, if_pos h.fits]

/-- The text tells the instruction. -/
theorem text_inj (hi : i.WellFormed) (hj : j.WellFormed) : i.text = j.text ↔ i = j := by
  constructor
  · intro htext
    have hread := parse?_text hi
    rw [htext, parse?_text hj] at hread
    exact (Option.some.inj hread).symm
  · rintro rfl
    rfl

theorem parse?_textLines_listing {program : List Instruction} (h : ∀ i ∈ program, i.WellFormed) :
    (textLines (listing program)).map parse? = program.map some := by
  rw [textLines_listing fun i hi => (h i hi).named, List.map_map]
  exact List.map_congr_left fun i hi => parse?_text (h i hi)

end Instruction

namespace Sink

/-- A collector of bytes without a capacity takes the whole text. -/
theorem writeAll_unbounded (bytes : ByteArray) :
    ∀ code : List Instruction, writeAll ({ bytes } : ByteCollector) code =
      ({ bytes := bytes ++ (Instruction.listing code).toUTF8 }, none)
  | [] => by
    have hempty : (Instruction.listing []).toUTF8 = ByteArray.empty := rfl
    rw [hempty, ByteArray.append_empty]
    rfl
  | i :: code => by
    have ih := writeAll_unbounded (bytes ++ i.line.toUTF8) code
    simp only [writeAll, write, ByteCollector.room?, Option.map_none, if_true] at ih ⊢
    rw [ih, toUTF8_listing_cons, ByteArray.append_assoc]

end Sink

namespace Instruction

/-- Reading and printing undo each other. An instruction whose name is a word and whose number can
be held is what its text is read as; whatever is read from a line is such an instruction, so that
two lines are printed the same just if they are read as the same instruction. What is read from
lines is kept by a collector as it is and by a collector of bytes as its text, and the lines of that
text are read as the same instructions again. -/
theorem parse?_text_round_trip :
    (∀ i : Instruction, i.WellFormed → parse? i.text = some i) ∧
    (∀ line i, parse? line = some i → i.WellFormed ∧ parse? i.text = some i) ∧
    (∀ line line' i i', parse? line = some i → parse? line' = some i' →
      (i.text = i'.text ↔ i = i')) ∧
    ∀ lines : List String, ∃ (kept : Collector) (written : ByteCollector),
      Sink.writeAll ({} : Collector) (lines.filterMap parse?) = (kept, none) ∧
      Sink.writeAll ({} : ByteCollector) (lines.filterMap parse?) = (written, none) ∧
      kept.items.toList = lines.filterMap parse? ∧
      written.bytes = (listing kept.items.toList).toUTF8 ∧
      (textLines (listing kept.items.toList)).map parse? = kept.items.toList.map some := by
  refine ⟨fun i => parse?_text, fun line i h => ?_, fun line line' i i' h h' => ?_, fun lines => ?_⟩
  · have hi := wellFormed_of_parse? h
    exact ⟨hi, parse?_text hi⟩
  · exact text_inj (wellFormed_of_parse? h) (wellFormed_of_parse? h')
  · have hread : ∀ i ∈ lines.filterMap parse?, i.WellFormed := by
      intro i hi
      obtain ⟨line, -, hline⟩ := List.mem_filterMap.1 hi
      exact wellFormed_of_parse? hline
    refine ⟨_, _, Sink.writeAll_collector _ _, Sink.writeAll_unbounded _ _, ?_, ?_, ?_⟩
    · simp
    · simp
    · simpa using parse?_textLines_listing hread

/-- The words of a line may be parted by any white space, and a number be written with a plus sign
and zeros. -/
example : parse? "\u2003push\u2003constant\t+007 " = some (.push .constant 7) := by decide

end Instruction

end Jack

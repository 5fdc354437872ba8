import Jack.Compiler.Run
import Jack.Report
import Mathlib.Data.List.Basic

/-!
# Errors at the end of the source

An error that has no span is reported at the last byte of the source. Bytes are turned into
characters by counting those of the text before, and at an offset inside a character there is no
such text: the offset counts as the end (`charOffset_inside`). So the report points at the last
character if that has one byte, and otherwise at the empty range behind it (`points_at_end`).
-/

namespace Jack

namespace Text

/-- No text ends inside a character. -/
theorem charsBefore?_inside {c : Char} (ds : List Char) {bytes : Nat} (hpos : 0 < bytes)
    (hlt : bytes < c.utf8Size) :
    ∀ (cs : List Char) (seen : Nat),
      charsBefore? seen (byteSize cs + bytes) (cs ++ c :: ds) = none
  | [], seen => by
    rw [byteSize_nil, Nat.zero_add, List.nil_append, charsBefore?, if_neg (by omega),
      if_neg (by omega)]
  | d :: cs, seen => by
    have := d.utf8Size_pos
    rw [byteSize_cons, List.cons_append, charsBefore?, if_neg (by omega), if_pos (by omega),
      Nat.add_assoc, Nat.add_sub_cancel_left]
    exact charsBefore?_inside ds hpos hlt cs (seen + 1)

theorem charOffset_inside {c : Char} (cs ds : List Char) {bytes : Nat} (hpos : 0 < bytes)
    (hlt : bytes < c.utf8Size) :
    charOffset (cs ++ c :: ds) (byteSize cs + bytes) = (cs ++ c :: ds).length := by
  rw [charOffset, charsBefore?_inside ds hpos hlt, Option.getD_none]

/-- The last byte of a text is its last character, or it lies inside it. -/
theorem charOffset_lastByte (cs : List Char) (last : Char) :
    charOffset (cs ++ [last]) (byteSize (cs ++ [last]) - 1) =
      if last.utf8Size = 1 then cs.length else cs.length + 1 := by
  have hpos := last.utf8Size_pos
  rw [byteSize_append, byteSize_cons, byteSize_nil, Nat.add_zero, Nat.add_sub_assoc hpos]
  split
  · rename_i hone
    rw [hone]
    exact charOffset_append cs [last]
  · rw [charOffset_inside cs [] (by omega) (by omega), List.length_append, List.length_singleton]

end Text

open Text Report

/-! ## The end of the source -/

section

variable {text : List Char} {e : Error}

theorem charRange_append_singleton (hspan : e.span? = none) (cs : List Char) (last : Char) :
    charRange (cs ++ [last]) e =
      (if last.utf8Size = 1 then cs.length else cs.length + 1, cs.length + 1) := by
  have hstop := charOffset_append (cs ++ [last]) []
  rw [List.append_nil] at hstop
  rw [charRange, place, hspan, Option.getD_none, hstop, charOffset_lastByte, List.length_append,
    List.length_singleton]

/-- Without a span, an error is reported up to the end of the source, from the last character on if
that has one byte, and otherwise from the end on. -/
theorem points_at_end (hspan : e.span? = none) (hne : text ≠ []) :
    charRange text e =
      (if (text.getLast hne).utf8Size = 1 then text.length - 1 else text.length, text.length) := by
  obtain ⟨cs, last, rfl⟩ : ∃ cs last, text = cs ++ [last] :=
    ⟨_, _, (List.dropLast_concat_getLast hne).symm⟩
  rw [charRange_append_singleton hspan, List.getLast_concat, List.length_append,
    List.length_singleton, Nat.add_sub_cancel]

/-- A class is left open, and then a comment ends in a character of two bytes. -/
theorem compile_wideEnd : (compile (.ofString "class A \x7b // é") ({} : Collector)).1 =
    .error (.unexpectedEnd "`\x7d`") := by
  decide +kernel

/-- The end of the source is missed behind a character of two bytes, and hit behind one of one. -/
theorem points_at_end_comment :
    (compile (.ofString "class A \x7b // é") ({} : Collector)).1 =
        .error (.unexpectedEnd "`\x7d`") ∧
      charRange "class A \x7b // é".toList (.unexpectedEnd "`\x7d`") = (14, 14) ∧
      charRange "class A \x7b // e".toList (.unexpectedEnd "`\x7d`") = (13, 14) :=
  ⟨compile_wideEnd, points_at_end rfl (by decide), points_at_end rfl (by decide)⟩

/-- Not every error at the end of a source is reported at its last character. -/
theorem not_points_at_last : ¬∀ (text : String) (e : Error), text ≠ "" →
    (compile (.ofString text) ({} : Collector)).1 = .error e → e.category = .syntactic →
      e.span? = none → charRange text.toList e = (text.length - 1, text.length) := by
  intro h
  have hrange := h "class A \x7b // é" _ (by decide) compile_wideEnd rfl rfl
  exact absurd hrange (by decide)

end

end Jack

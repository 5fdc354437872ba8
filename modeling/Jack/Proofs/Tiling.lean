import Jack.Error
import Jack.Proofs.Layout
import Jack.Proofs.LineByLine
import Jack.Proofs.Spans
import Mathlib.Data.List.DropRight

/-!
# Tokens tile their source

The scanner loses no byte: what it has passed and what is ahead of it make up the source
(`Scanner.extent`). So where it comes to a lexeme, its offset is that of the text still to be
scanned, and a token stands where its text stands (`Stands.tiling`). Between tokens there is layout
and nothing else, up to the end of the source or to what is wrong with it (`tiles_ofString`).
-/

namespace Jack

open Text Comment WholeText

/-! ## Parts of a text -/

/-- The span of a part that begins at the given byte. -/
def Span.ofPart (start : Nat) (part : List Char) : Span := ⟨start, start + byteSize part⟩

/-- The bytes of the text in the span are those of the part. -/
structure Span.Shows (span : Span) (text part : String) : Prop where
  le : span.start ≤ span.stop
  inside : span.stop ≤ text.utf8ByteSize
  bytes : text.toUTF8.extract span.start span.stop = part.toUTF8

theorem utf8ByteSize_ofList (cs : List Char) : (String.ofList cs).utf8ByteSize = byteSize cs := by
  induction cs with
  | nil => rfl
  | cons c cs ih =>
    have hcons : c :: cs = [c] ++ cs := rfl
    rw [hcons, String.ofList_append, String.utf8ByteSize_append, ih, byteSize_append]
    simp

theorem byteSize_pos {cs : List Char} (h : cs ≠ []) : 0 < byteSize cs :=
  Nat.lt_of_lt_of_le (List.length_pos_iff.2 h) (length_le_byteSize cs)

/-- The part stands in the text where the span says. -/
def Span.Marks (span : Span) (text part : List Char) : Prop :=
  ∃ before after, text = before ++ (part ++ after) ∧ span = .ofPart (byteSize before) part

theorem Span.Marks.shows {span : Span} {text : String} {part : List Char}
    (h : span.Marks text.toList part) : span.Shows text (String.ofList part) := by
  obtain ⟨before, after, htext, rfl⟩ := h
  have hparts : text = String.ofList before ++ (String.ofList part ++ String.ofList after) := by
    rw [← String.ofList_append, ← String.ofList_append, ← htext, String.ofList_toList]
  subst hparts
  refine ⟨Nat.le_add_right _ _, ?_, ?_⟩
  · simp only [String.utf8ByteSize_append, utf8ByteSize_ofList, ofPart]
    omega
  · have hbefore : byteSize before = (String.ofList before).toByteArray.size :=
      (utf8ByteSize_ofList _).symm
    have hpart : byteSize part = (String.ofList part).toByteArray.size :=
      (utf8ByteSize_ofList _).symm
    simp only [String.toUTF8_eq_toByteArray, String.toByteArray_append, ofPart, hbefore, hpart]
    rw [← Nat.add_zero (String.ofList before).toByteArray.size, Nat.add_assoc,
      ByteArray.extract_append_size_add, Nat.zero_add, ByteArray.extract_append_eq_left rfl]

theorem Span.Marks.lt {span : Span} {text part : List Char} (h : span.Marks text part)
    (hne : part ≠ []) : span.start < span.stop := by
  obtain ⟨before, after, -, rfl⟩ := h
  exact Nat.lt_add_of_pos_right (byteSize_pos hne)

section TrimEnd

variable {c : Char} {cs : List Char}

theorem trimEnd_begins (cs : List Char) : trimEnd cs <+: cs := List.rdropWhile_prefix isBlank cs

theorem trimEnd_concat_of_isBlank (cs : List Char) (h : isBlank c = true) :
    trimEnd (cs ++ [c]) = trimEnd cs :=
  List.rdropWhile_concat_pos isBlank cs c h

theorem trimEnd_ne_nil (h : isBlank c = false) : trimEnd (c :: cs) ≠ [] := fun hnil => by
  have hall := List.rdropWhile_eq_nil_iff.1 hnil c List.mem_cons_self
  simp [h] at hall

end TrimEnd

/-! ## Errors and texts -/

/-- The lexeme that is no token. -/
def ScanError.lexeme? : ScanError → Option String
  | .invalidToken lexeme _ | .numberTooLarge lexeme _ | .characterTooLarge lexeme _ => some lexeme
  | .openString _ | .read _ => none

theorem ScanError.lexeme?_ofFlaw (lexeme : String) (span : Span) (flaw : Lexeme.Flaw) :
    (ofFlaw lexeme span flaw).lexeme? = some lexeme ∧
      (ofFlaw lexeme span flaw).span? = some span := by
  cases flaw <;> exact ⟨rfl, rfl⟩

/-- The part in front of a text with which an error finds fault: the lexeme, or the line from a
quote that is not closed, without the blanks at its end. -/
inductive ScanError.Faults : ScanError → List Char → List Char → Prop
  | lexeme {e : ScanError} {cs after : List Char} (h : e.lexeme? = some (String.ofList cs))
    (hne : cs ≠ []) : Faults e cs (cs ++ after)
  | openString {span : Span} {body after : List Char} (hquote : '"' ∉ body) (hline : '\n' ∉ body)
    (hafter : ∀ c ∈ after.head?, c = '\n') :
    Faults (.openString span) (trimEnd ('"' :: body)) ('"' :: body ++ after)

theorem ScanError.Faults.ne_nil {e : ScanError} {part text : List Char} (h : e.Faults part text) :
    part ≠ [] := by
  cases h with
  | lexeme _ hne => exact hne
  | openString => exact trimEnd_ne_nil (by decide)

theorem ScanError.Faults.lexeme_eq {e : ScanError} {part text : List Char}
    (h : e.Faults part text) : ∀ lexeme ∈ e.lexeme?, lexeme = String.ofList part := by
  intro lexeme hlexeme
  cases h with
  | lexeme h => exact Option.some.inj (hlexeme.symm.trans h)
  | openString => simp [lexeme?] at hlexeme

theorem ScanError.Faults.exists_append {e : ScanError} {part text : List Char}
    (h : e.Faults part text) : ∃ after, text = part ++ after := by
  cases h with
  | lexeme => exact ⟨_, rfl⟩
  | openString =>
    obtain ⟨after, hafter⟩ := (trimEnd_begins _).trans (List.prefix_append _ _)
    exact ⟨after, hafter.symm⟩

/-! ## The bytes of a scanner -/

namespace Scanner

def bytesOf : Source → Nat
  | [] => 0
  | .ok line :: later => byteSize line + bytesOf later
  | .error _ :: later => bytesOf later

/-- The bytes that are passed, and those ahead. -/
def extent (s : Scanner) : Nat := s.offset + byteSize s.rest + bytesOf s.pending

theorem bytesOf_ofLines (lines : List (List Char)) :
    bytesOf (.ofLines lines) = byteSize lines.flatten := by
  induction lines with
  | nil => rfl
  | cons line lines ih =>
    rw [List.flatten_cons, byteSize_append, ← ih]
    rfl

theorem bytesOf_ofChars (text : List Char) : bytesOf (.ofChars text) = byteSize text := by
  rw [Source.ofChars, bytesOf_ofLines, flatten_linesEnding]

variable {s s' : Scanner} {t : Token} {e : ScanError}

theorem extent_skipBlanks (s : Scanner) : s.skipBlanks.extent = s.extent := by
  have hsplit := List.takeWhile_append_dropWhile (p := isBlank) (l := s.rest)
  simp only [extent, skipBlanks, trimStart]
  rw [← congrArg byteSize hsplit, byteSize_append]
  omega

theorem extent_enterLine {line : List Char} {pending : Source} (hr : s.rest = [])
    (hp : s.pending = .ok line :: pending) : (s.enterLine line pending).extent = s.extent := by
  simp only [extent, enterLine, hr, hp, bytesOf, byteSize_blank, byteSize_nil]
  omega

/-- A token stands where the scanner stands. -/
theorem lexeme_eq_ok (h : s.lexeme = (.ok t, s')) :
    t.span = .ofPart s.offset t.lexeme.toList ∧ t.lexeme.toList ≠ [] ∧ s'.extent = s.extent := by
  unfold lexeme at h
  split at h
  · simp at h
  · rename_i cs rest hcut
    obtain ⟨hne, hrest⟩ := Lexeme.cut?_eq_some hcut
    simp only at h
    split at h
    · obtain ⟨ht, rfl⟩ := Prod.mk.inj h
      obtain rfl := Except.ok.inj ht
      refine ⟨?_, ?_, ?_⟩
      · rw [String.toList_ofList, Span.ofPart]
      · rwa [String.toList_ofList]
      · simp only [extent, ← hrest, byteSize_append]
        omega
    · simp at h

/-- An error stands there as well, with the lexeme that it names or with what is left of the
line. -/
theorem lexeme_eq_error (h : s.lexeme = (.error e, s')) :
    (∃ cs, cs ≠ [] ∧ e.lexeme? = some (String.ofList cs) ∧
        e.span? = some (.ofPart s.offset cs)) ∨
      Lexeme.cut? s.rest = none ∧ e = .openString (.ofPart s.offset (trimEnd s.rest)) := by
  unfold lexeme at h
  split at h
  · rename_i hcut
    obtain ⟨he, -⟩ := Prod.mk.inj h
    exact .inr ⟨hcut, (Except.error.inj he).symm⟩
  · rename_i cs rest hcut
    simp only at h
    split at h
    · simp at h
    · obtain ⟨he, -⟩ := Prod.mk.inj h
      obtain rfl := Except.error.inj he
      exact .inl ⟨cs, (Lexeme.cut?_eq_some hcut).1, ScanError.lexeme?_ofFlaw ..⟩

end Scanner

section Stands

variable {s : Scanner} {text line later : List Char}

/-- The offset of a scanner in a line. -/
theorem offset_of_blank (hpending : s.pending = .ofChars later)
    (hrest : s.rest = (blank .code line).1) : s.offset + byteSize (line ++ later) = s.extent := by
  rw [Scanner.extent, hpending, Scanner.bytesOf_ofChars, hrest, byteSize_blank, byteSize_append,
    Nat.add_assoc]

theorem map_some_injective {r r' : Except ScanError Token} (h : r.map some = r'.map some) :
    r = r' := by
  cases r <;> cases r' <;> simp_all [Except.map]

/-- A scanner comes to the end of its text, or to the lexeme in front of it and has passed what stands
before that. -/
theorem Stands.comes (h : Stands s text) :
    skipLayout text = [] ∧
        (∃ s₁ : Scanner, s₁.rest = [] ∧ s₁.pending = [] ∧ s.next = (.ok none, s₁)) ∨
      ∃ s₁ : Scanner, ∃ line later : List Char, Solid line ∧ MidLine later line ∧
        s₁.pending = .ofChars later ∧ (s₁.rest, s₁.inComment) = blank .code line ∧
        skipLayout text = line ++ later ∧ s₁.extent = s.extent ∧
        s.next = (s₁.lexeme.1.map some, s₁.lexeme.2) := by
  fun_induction Scanner.next s with
  | case1 s s' hempty hpending =>
    have hanswers := h.next
    rw [Scanner.next_of_end (List.isEmpty_iff.1 hempty) hpending] at hanswers
    cases hanswers with
    | done htext => exact .inl ⟨htext, s', List.isEmpty_iff.1 hempty, hpending, rfl⟩
  | case2 s s' hempty reason pending hpending =>
    obtain ⟨-, later, hlater, -⟩ | ⟨hrest, -⟩ := h.skipBlanks
    · rw [hpending] at hlater
      obtain ⟨_, _, -, hline, -⟩ := List.map_eq_cons_iff.1 hlater.symm
      exact absurd hline (by simp)
    · exact absurd (List.isEmpty_iff.1 hempty) hrest
  | case3 s s' hempty line pending hpending ih =>
    obtain ⟨-, later, hlater, htext⟩ | ⟨hrest, -⟩ := h.skipBlanks
    · have hextent : (s'.enterLine line pending).extent = s.extent :=
        (Scanner.extent_enterLine (List.isEmpty_iff.1 hempty) hpending).trans s.extent_skipBlanks
      rw [← hextent]
      exact ih (stands_enterLine (hlater.symm.trans hpending) htext)
    · exact absurd (List.isEmpty_iff.1 hempty) hrest
  | case4 s s' hempty result after hlexeme =>
    obtain ⟨hrest, -⟩ | ⟨-, line, later, hsolid, hmid, hpending, hblank, htext⟩ := h.skipBlanks
    · exact absurd (List.isEmpty_iff.2 hrest) hempty
    · exact .inr ⟨s', line, later, hsolid, hmid, hpending, hblank, htext, s.extent_skipBlanks,
        by rw [hlexeme]⟩

/-- In front of a text that is not only layout the scanner comes to the lexeme, and has passed what
stands before it. -/
theorem Stands.exists_lexeme (h : Stands s text) (hne : skipLayout text ≠ []) :
    ∃ s₁ : Scanner, ∃ line later : List Char, Solid line ∧ MidLine later line ∧
      s₁.rest = (blank .code line).1 ∧ skipLayout text = line ++ later ∧
      s₁.offset + byteSize (skipLayout text) = s.extent ∧ s₁.extent = s.extent ∧
      ∀ result s', s.next = (result.map some, s') → s₁.lexeme = (result, s') := by
  obtain ⟨hnil, -⟩ | ⟨s₁, line, later, hsolid, hmid, hpending, hblank, htext, hextent, hnext⟩ :=
    h.comes
  · exact absurd hnil hne
  · have hrest : s₁.rest = (blank .code line).1 := (Prod.mk.inj hblank).1
    refine ⟨s₁, line, later, hsolid, hmid, hrest, htext, ?_, hextent, fun result s' hresult => ?_⟩
    · rw [htext, offset_of_blank hpending hrest, hextent]
    · obtain ⟨hmap, hs'⟩ := Prod.mk.inj (hnext.symm.trans hresult)
      rw [← map_some_injective hmap, ← hs']

/-- A line from which no lexeme is cut begins with a quote, and has no other. -/
theorem openString_of_cut?_eq_none (hsolid : Solid line) (hmid : MidLine later line)
    (hcut : Lexeme.cut? (blank .code line).1 = none) :
    ∃ body after, '"' ∉ body ∧ '\n' ∉ body ∧ (∀ c ∈ after.head?, c = '\n') ∧
      line ++ later = '"' :: body ++ after ∧
      trimEnd (blank .code line).1 = trimEnd ('"' :: body) := by
  obtain ⟨c, line, rfl, hblank, hcomment⟩ := hsolid
  rw [blank_code_cons hcomment] at hcut ⊢
  by_cases hquote : c = '"'
  · subst hquote
    rw [if_pos rfl] at hcut ⊢
    rcases blank_string line with ⟨content, rest, -, -, hstring⟩ | ⟨hopen, hstring⟩
    · rw [hstring, Lexeme.cut?, if_pos rfl] at hcut
      split at hcut
      · rename_i hdrop
        rw [List.dropWhile_eq_nil_iff] at hdrop
        simpa using hdrop '"' (by simp)
      · simp at hcut
    · rw [hstring]
      obtain ⟨body, hbody, rfl | ⟨rfl, rfl⟩⟩ :=
        MidLine.split ((midLine_cons (by decide : '"' ≠ '\n')).1 hmid)
      · refine ⟨body, '\n' :: later, fun h => hopen (List.mem_append_left _ h), hbody, by simp,
          by simp, ?_⟩
        exact trimEnd_concat_of_isBlank ('"' :: body) (by decide)
      · exact ⟨line, [], hopen, hbody, by simp, rfl, rfl⟩
  · rw [Lexeme.cut?, if_neg hquote] at hcut
    split at hcut <;> simp at hcut

end Stands

/-! ## Tilings -/

/-- Tokens with layout between them make up a text that begins at the given byte, up to the end or
to the part with which an error finds fault. -/
inductive Tiling : Nat → List Char → List Token → Option ScanError → Prop
  | done {start : Nat} {text : List Char} (h : LastLayout text) : Tiling start text [] none
  | failed {start : Nat} {gap part rest : List Char} {e : ScanError} (hgap : Layout gap)
    (hfaults : e.Faults part rest) (hspan : e.span? = some (.ofPart (start + byteSize gap) part)) :
    Tiling start (gap ++ rest) [] (some e)
  | token {start : Nat} {gap cs after : List Char} {t : Token} {tokens : List Token}
    {stop : Option ScanError} (hgap : Layout gap) (hne : cs ≠ [])
    (hlexeme : t.lexeme = String.ofList cs) (hspan : t.span = .ofPart (start + byteSize gap) cs)
    (h : Tiling t.span.stop after tokens stop) :
    Tiling start (gap ++ (cs ++ after)) (t :: tokens) stop

theorem WholeText.cut?_eq_some {text lexeme after : List Char}
    (h : WholeText.cut? text = some (lexeme, after)) : text = lexeme ++ after := by
  cases text with
  | nil => simp [WholeText.cut?] at h
  | cons c rest =>
    simp only [WholeText.cut?] at h
    split at h
    · split at h
      · rename_i hd
        obtain ⟨rfl, rfl⟩ := Prod.mk.inj (Option.some.inj h)
        rw [List.append_assoc, List.singleton_append, ← hd, List.cons_append,
          List.takeWhile_append_dropWhile]
      · simp at h
    · split at h <;> obtain ⟨rfl, rfl⟩ := Prod.mk.inj (Option.some.inj h)
      · rfl
      · rw [List.cons_append, List.takeWhile_append_dropWhile]

/-- Behind the layout in front of a text the scanner stands where the text goes on. -/
theorem Stands.exists_gap {s : Scanner} {text : List Char} {start : Nat} (h : Stands s text)
    (hextent : s.extent = start + byteSize text) (hne : skipLayout text ≠ []) :
    ∃ gap : List Char, ∃ s₁ : Scanner, Layout gap ∧ text = gap ++ skipLayout text ∧
      s₁.offset = start + byteSize gap ∧ s₁.extent = s.extent ∧
      (∀ result s', s.next = (result.map some, s') → s₁.lexeme = (result, s')) ∧
      (Lexeme.cut? s₁.rest = none → ∀ span, ScanError.Faults (.openString span) (trimEnd s₁.rest)
        (skipLayout text)) := by
  obtain ⟨gap, hgap, hlayout⟩ := skips_skipLayout text
  obtain ⟨s₁, line, later, hsolid, hmid, hrest, htext, hoffset, hextent₁, hlexeme⟩ :=
    h.exists_lexeme hne
  refine ⟨gap, s₁, hlayout.resolve_right fun hlast => hne hlast.1, hgap, ?_, hextent₁, hlexeme,
    fun hcut span => ?_⟩
  · have hsize := congrArg byteSize hgap
    rw [byteSize_append] at hsize
    omega
  · obtain ⟨body, after, hquote, hline, hafter, hbody, htrim⟩ :=
      openString_of_cut?_eq_none hsolid hmid (hrest ▸ hcut)
    rw [hrest, htrim, htext, hbody]
    exact .openString hquote hline hafter

theorem Stands.tiling {s : Scanner} {text : List Char} {start : Nat} (h : Stands s text)
    (hextent : s.extent = start + byteSize text) :
    Tiling start text s.tokens.tokens s.tokens.stop := by
  have hanswers := h.next
  fun_induction Scanner.tokens s generalizing text start with
  | case1 s t s' hnext later =>
    rename_i ih
    rw [hnext] at hanswers
    cases hanswers with
    | @token _ cs after span kind hcut hdecode hstands =>
      have hne : skipLayout text ≠ [] := fun hnil => by simp [hnil, WholeText.cut?] at hcut
      have hskip : skipLayout text = cs ++ after := WholeText.cut?_eq_some hcut
      obtain ⟨gap, s₁, hlayout, hgap, hoffset, hextent₁, hlexeme, -⟩ := h.exists_gap hextent hne
      obtain ⟨hstands_at, hcs, hextent'⟩ := Scanner.lexeme_eq_ok (hlexeme (.ok _) s' hnext)
      simp only [hoffset, String.toList_ofList] at hstands_at hcs
      obtain rfl := hstands_at
      rw [hgap, hskip]
      refine .token hlayout hcs rfl rfl (ih hstands ?_ hstands.next)
      rw [hextent', hextent₁, hextent, hgap, hskip, byteSize_append, byteSize_append, Span.ofPart,
        ← Nat.add_assoc, ← Nat.add_assoc]
  | case2 s s' hnext =>
    rw [hnext] at hanswers
    cases hanswers with
    | done htext =>
      obtain ⟨gap, hgap, hlayout⟩ := skips_skipLayout text
      rw [htext, List.append_nil] at hgap
      rw [hgap]
      exact .done (hlayout.elim .closed And.right)
  | case3 s e s' hnext =>
    rw [hnext] at hanswers
    have hne : skipLayout text ≠ [] := by
      cases hanswers with
      | unterminated htext => exact htext
      | rejected hcut => exact fun hnil => by simp [hnil, WholeText.cut?] at hcut
    obtain ⟨gap, s₁, hlayout, hgap, hoffset, -, hlexeme, hopen⟩ := h.exists_gap hextent hne
    rw [hgap]
    rcases Scanner.lexeme_eq_error (hlexeme (.error _) s' hnext) with
      ⟨cs, hcs, hnamed, hspan⟩ | ⟨hcut, rfl⟩
    · rw [hoffset] at hspan
      cases hanswers with
      | unterminated => simp [ScanError.lexeme?] at hnamed
      | @rejected _ cs' after span flaw hcut =>
        obtain rfl : cs' = cs := String.ofList_injective
          (Option.some.inj ((ScanError.lexeme?_ofFlaw ..).1.symm.trans hnamed))
        rw [WholeText.cut?_eq_some hcut]
        exact .failed hlayout (.lexeme hnamed hcs) hspan
    · exact .failed hlayout (hopen hcut _) (by rw [← hoffset]; rfl)

/-! ## Sources -/

/-- The span holds white space and comments; at the end of the text a comment may be open. -/
def Span.IsLayout (gap : Span) (text : String) : Prop :=
  ∃ part, gap.Shows text (String.ofList part) ∧
    (Layout part ∨ gap.stop = text.utf8ByteSize ∧ LastLayout part)

namespace TokenStream

/-- The spans in front of the tokens and behind the last of them, up to the given byte. -/
def gaps (start last : Nat) : List Token → List Span
  | [] => [⟨start, last⟩]
  | t :: tokens => ⟨start, t.span.start⟩ :: gaps t.span.stop last tokens

/-- Where the tokens of a text end: at its end, or where an error stands whose span holds what it
finds fault with. -/
inductive EndsAt (text : String) : Option ScanError → Nat → Prop
  | done : EndsAt text none text.utf8ByteSize
  | failed {e : ScanError} {span : Span} {before part rest : List Char}
    (hspan : e.span? = some span) (hlt : span.start < span.stop)
    (hshows : span.Shows text (String.ofList part)) (htext : text.toList = before ++ rest)
    (hstart : span.start = byteSize before) (hfaults : e.Faults part rest) :
    EndsAt text (some e) span.start

/-- Tokens fill the text, each with its lexeme and one behind the other, and but for them there is
layout up to where they end. -/
structure Tiles (stream : TokenStream) (text : String) : Prop where
  filled : ∀ t ∈ stream.tokens, t.span.start < t.span.stop ∧ t.span.Shows text t.lexeme
  ordered : stream.tokens.Pairwise fun t t' => t.span.stop ≤ t'.span.start
  spaced : ∃ last, EndsAt text stream.stop last ∧
    ∀ gap ∈ gaps 0 last stream.tokens, gap.IsLayout text

end TokenStream

namespace Tiling

variable {text rest before : List Char} {tokens : List Token} {stop : Option ScanError}
  {e : ScanError}

/-- Where the text goes on behind a token. -/
theorem behind {gap cs after : List Char} {span : Span}
    (htext : text = before ++ (gap ++ (cs ++ after)))
    (hspan : span = .ofPart (byteSize before + byteSize gap) cs) :
    text = before ++ (gap ++ cs) ++ after ∧ byteSize (before ++ (gap ++ cs)) = span.stop := by
  rw [htext, hspan, Span.ofPart, byteSize_append, byteSize_append, Nat.add_assoc]
  exact ⟨by simp only [List.append_assoc], rfl⟩

variable (before) in
theorem marks (h : Tiling (byteSize before) rest tokens stop) (htext : text = before ++ rest) :
    ∀ t ∈ tokens, t.lexeme.toList ≠ [] ∧ t.span.Marks text t.lexeme.toList := by
  generalize hstart : byteSize before = start at h
  induction h generalizing before with
  | done | failed => simp
  | @token start gap cs after t tokens stop hgap hne hlexeme hspan h ih =>
    subst hstart
    rintro t' (_ | ⟨_, ht'⟩)
    · rw [hlexeme, String.toList_ofList]
      refine ⟨hne, before ++ gap, after, ?_, ?_⟩
      · rw [htext, List.append_assoc]
      · rw [hspan, byteSize_append]
    · obtain ⟨hbehind, hstop⟩ := behind htext hspan
      exact ih _ hbehind hstop t' ht'

variable (before) in
/-- What an error finds fault with stands where the error says. -/
theorem faults (h : Tiling (byteSize before) rest tokens (some e)) (htext : text = before ++ rest) :
    ∃ front part back, text = front ++ back ∧ e.Faults part back ∧
      e.span? = some (.ofPart (byteSize front) part) := by
  generalize hstart : byteSize before = start at h
  generalize hstop : some e = stop at h
  induction h generalizing before with
  | done => simp at hstop
  | @failed start gap part rest e' hgap hfaults hspan =>
    obtain rfl := Option.some.inj hstop
    refine ⟨before ++ gap, part, rest, htext.trans (List.append_assoc ..).symm, hfaults, ?_⟩
    rw [hspan, ← hstart, byteSize_append]
  | @token start gap cs after t tokens stop hgap hne hlexeme hspan h ih =>
    subst hstart
    obtain ⟨hbehind, hstart⟩ := behind htext hspan
    exact ih _ hbehind hstart hstop

theorem isLayout {text : String} {gap after : List Char}
    (htext : text.toList = before ++ (gap ++ after)) (h : Layout gap) :
    Span.IsLayout ⟨byteSize before, byteSize before + byteSize gap⟩ text :=
  ⟨gap, Span.Marks.shows ⟨before, after, htext, rfl⟩, .inl h⟩

open TokenStream

variable (before) in
theorem spaced {text : String} (h : Tiling (byteSize before) rest tokens stop)
    (htext : text.toList = before ++ rest) :
    ∃ last, EndsAt text stop last ∧
      ∀ gap ∈ gaps (byteSize before) last tokens, gap.IsLayout text := by
  generalize hstart : byteSize before = start at h ⊢
  induction h generalizing before with
  | @done start rest h =>
    subst hstart
    have hsize : text.utf8ByteSize = byteSize before + byteSize rest := by
      rw [← byteSize_append, ← htext, ← utf8ByteSize_ofList, String.ofList_toList]
    refine ⟨_, .done, ?_⟩
    rintro gap (_ | ⟨_, ⟨⟩⟩)
    refine ⟨rest, Span.Marks.shows ⟨before, [], ?_, ?_⟩, .inr ⟨rfl, h⟩⟩
    · rw [List.append_nil, htext]
    · rw [hsize, Span.ofPart]
  | @failed start gap part rest e hgap hfaults hspan =>
    subst hstart
    obtain ⟨after, rfl⟩ := hfaults.exists_append
    have hmarks : (Span.ofPart (byteSize (before ++ gap)) part).Marks text.toList part :=
      ⟨before ++ gap, after, by rw [htext, List.append_assoc], rfl⟩
    rw [← byteSize_append] at hspan
    refine ⟨_, .failed hspan (hmarks.lt hfaults.ne_nil) hmarks.shows
      (htext.trans (List.append_assoc ..).symm) rfl hfaults, ?_⟩
    rintro gap (_ | ⟨_, ⟨⟩⟩)
    simpa only [Span.ofPart, byteSize_append] using isLayout htext hgap
  | @token start gap cs after t tokens stop hgap hne hlexeme hspan h ih =>
    subst hstart
    obtain ⟨hbehind, hstart⟩ := behind htext hspan
    obtain ⟨last, hends, hgaps⟩ := ih _ hbehind hstart
    refine ⟨last, hends, ?_⟩
    rintro gap' (_ | ⟨_, hgap'⟩)
    · rw [hspan]
      exact isLayout htext hgap
    · exact hgaps gap' hgap'

end Tiling

theorem TokenStream.tiling_ofString (text : String) :
    Tiling 0 text.toList (ofSource (.ofString text)).tokens (ofSource (.ofString text)).stop := by
  refine (stands_ofSource text.toList).tiling ?_
  rw [Scanner.extent, Scanner.ofSource, Scanner.bytesOf_ofChars]
  rfl

/-- The tokens of a text fill it but for layout, up to its end or to the lexical error. -/
theorem TokenStream.tiles_ofString (text : String) : (ofSource (.ofString text)).Tiles text where
  filled t ht := by
    obtain ⟨hne, hmarks⟩ := (tiling_ofString text).marks [] rfl t ht
    refine ⟨hmarks.lt hne, ?_⟩
    simpa only [String.ofList_toList] using hmarks.shows
  ordered := (pairwise_span (.ofString text)).imp And.right
  spaced := (tiling_ofString text).spaced [] rfl

end Jack

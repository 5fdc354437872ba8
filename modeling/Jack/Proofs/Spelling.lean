import Jack.Proofs.Layout
import Jack.Proofs.LineByLine
import Jack.Text.Decimal

/-!
# Spelling tokens

A row of tokens is spelled by writing each as it is printed, with layout between neighbours that
begins with a blank (`Spells`). Such a text is read back as the tokens it spells
(`tokens_of_spells`), so layout never changes a token, and what looks like a comment in a string
stays part of it.
-/

namespace Jack

open Text WholeText
open Lexeme (isSymbol endsWord decode decodeWord maxConstant)

/-! ## Texts of tokens -/

namespace Token.Kind

/-- The token as it is printed. -/
def written : Kind → List Char
  | keyword k => k.text.toList
  | symbol c => [c]
  | identifier name => name.toList
  | integer n => n.repr.toList
  | string content => '"' :: content.toList ++ ['"']

/-- The token has a printed form. -/
def Writable : Kind → Prop
  | keyword _ => True
  | symbol c => Lexeme.isSymbol c = true
  | identifier name => name.toList ≠ [] ∧ (∀ c ∈ name.toList, endsWord c = false) ∧
      (∀ c ∈ name.toList.head?, c.isDigit = false) ∧ ∀ k : Keyword, k.text ≠ name
  | integer n => n ≤ maxConstant
  | string content => ∀ c ∈ content.toList, c ≠ '"' ∧ c ≠ '\n' ∧ c.toNat ≤ maxConstant

end Token.Kind

open Token (Kind)

/-- What may stand between two tokens: a blank, and any layout behind it. -/
inductive Separator : List Char → Prop
  | blank {c : Char} {rest : List Char} (h : isBlank c = true) (hrest : Layout rest) :
    Separator (c :: rest)

/-- The text is the printed tokens with a separator between each and the next. -/
inductive Spells : List Kind → List Char → Prop
  | nil : Spells [] []
  | single (k : Kind) : Spells [k] k.written
  | cons (k : Kind) {k' : Kind} {ks : List Kind} {separator text : List Char}
    (hsep : Separator separator) (h : Spells (k' :: ks) text) :
    Spells (k :: k' :: ks) (k.written ++ separator ++ text)

theorem Separator.layout {separator : List Char} (h : Separator separator) : Layout separator := by
  cases h with
  | blank h hrest => exact .blank h hrest

/-! ## Layout in front -/

section Layout

variable {body gap rest text : List Char}

theorem afterLine_of_body (h : '\n' ∉ body) : afterLine (body ++ '\n' :: rest) = rest := by
  have hspan := span_append (p := (· ≠ '\n')) body ('\n' :: rest)
    (fun c hc => by simpa using ne_of_mem_of_not_mem hc h) (by simp)
  rw [afterLine, hspan.2, List.drop_one, List.tail_cons]

theorem afterBlock_of_body (h : ¬ ['*', '/'] <:+: body) :
    afterBlock (body ++ '*' :: '/' :: rest) = rest := by
  induction body with
  | nil => rfl
  | cons c body ih =>
    rw [List.infix_cons_iff, not_or] at h
    rw [List.cons_append, afterBlock_cons, ih h.2]
    rintro tail rfl htail
    cases body with
    | nil => simp at htail
    | cons d body =>
      obtain ⟨rfl, -⟩ := List.cons.inj htail
      exact h.1 ⟨body, rfl⟩

/-- Only a slash begins a comment. -/
theorem not_startsComment_of_ne {c : Char} (h : c ≠ '/') : ¬ StartsComment (c :: rest) := by
  rintro ⟨d, tail, htext, -⟩
  exact h (List.cons.inj htext).1

theorem skipLayout_append (h : Layout gap) (text : List Char) :
    skipLayout (gap ++ text) = skipLayout text := by
  induction h with
  | nil => rfl
  | @blank c rest hblank _ ih =>
    have hslash : c ≠ '/' := by
      rintro rfl
      exact absurd hblank (by decide)
    rw [List.cons_append, skipLayout_cons (not_startsComment_of_ne hslash), if_pos hblank, ih]
  | line hbody _ ih =>
    rw [List.cons_append, List.cons_append, skipLayout_line, List.append_assoc, List.cons_append,
      afterLine_of_body hbody, ih]
  | block hbody _ ih =>
    rw [List.cons_append, List.cons_append, skipLayout_block, List.append_assoc, List.cons_append,
      List.cons_append, afterBlock_of_body hbody, ih]

theorem skipLayout_of_solid (h : Solid text) : skipLayout text = text := by
  obtain ⟨c, rest, rfl, hblank, hcomment⟩ := h
  rw [skipLayout_cons hcomment, if_neg (by simp [hblank])]

end Layout

/-! ## Reading one token -/

/-- The text ends here or goes on with a blank. -/
def Parted (rest : List Char) : Prop := ∀ c ∈ rest.head?, isBlank c = true

theorem Separator.parted {separator text : List Char} (h : Separator separator) :
    Parted (separator ++ text) := by
  cases h with
  | blank h => simpa [Parted] using h

/-- In front of a blank the lexeme is read as the token. -/
structure ReadsAs (lexeme : List Char) (kind : Kind) : Prop where
  solid : ∀ {rest}, Parted rest → Solid (lexeme ++ rest)
  cut : ∀ {rest}, Parted rest → WholeText.cut? (lexeme ++ rest) = some (lexeme, rest)
  decode : decode lexeme = .ok kind

theorem ReadsAs.scan {lexeme gap rest : List Char} {kind : Kind} (h : ReadsAs lexeme kind)
    (hgap : Layout gap) (hrest : Parted rest) :
    scan (gap ++ (lexeme ++ rest)) = ((kind, lexeme) :: (scan rest).1, (scan rest).2) := by
  refine scan_of_token ?_ h.decode
  rw [skipLayout_append hgap, skipLayout_of_solid (h.solid hrest), h.cut hrest]

section Words

variable {word : List Char} {c : Char}

theorem isSymbol_of_endsWord (h : endsWord c = false) : isSymbol c = false := by
  simp only [endsWord, Bool.or_eq_false_iff] at h
  exact h.1.2

theorem ne_quote_of_endsWord (h : endsWord c = false) : c ≠ '"' := by
  rintro rfl
  exact absurd h (by decide)

/-- A run of characters none of which ends a word is a lexeme. -/
theorem readsAs_of_word {kind : Kind} (hne : word ≠ []) (hword : ∀ c ∈ word, endsWord c = false)
    (hdecode : decode word = .ok kind) : ReadsAs word kind where
  solid {rest} _ := by
    obtain ⟨c, cs, rfl⟩ := List.exists_cons_of_ne_nil hne
    have hc := hword c (by simp)
    have hslash : c ≠ '/' := by
      rintro rfl
      exact absurd hc (by decide)
    refine ⟨c, cs ++ rest, rfl, ?_, not_startsComment_of_ne hslash⟩
    simp only [endsWord, Bool.or_eq_false_iff] at hc
    exact hc.1.1
  cut {rest} hrest := by
    obtain ⟨c, cs, rfl⟩ := List.exists_cons_of_ne_nil hne
    have hc := hword c (by simp)
    have hspan := span_append (p := (!endsWord ·)) cs rest
      (fun d hd => by simp [hword d (List.mem_cons_of_mem _ hd)])
      (fun d hd => by simp [endsWord, hrest d hd])
    rw [List.cons_append, WholeText.cut?, if_neg (ne_quote_of_endsWord hc),
      if_neg (by simp [isSymbol_of_endsWord hc]), hspan.1, hspan.2]
  decode := hdecode

theorem decodeWord_of_forall (hne : word ≠ []) (hword : ∀ c ∈ word, endsWord c = false) :
    decodeWord word = .ok (match Keyword.ofText? (String.ofList word) with
      | some k => .keyword k
      | none => .identifier (String.ofList word)) := by
  rw [decodeWord, if_neg (by simpa [hne] using hword)]
  dsimp only
  cases Keyword.ofText? (String.ofList word) <;> rfl

/-- A word that does not begin with a digit is decoded as a word. -/
theorem decode_word (hne : word ≠ []) (hword : ∀ c ∈ word, endsWord c = false)
    (hdigit : ∀ c ∈ word.head?, c.isDigit = false) :
    decode word = match Keyword.ofText? (String.ofList word) with
      | some k => .ok (.keyword k)
      | none => .ok (.identifier (String.ofList word)) := by
  obtain ⟨c, cs, rfl⟩ := List.exists_cons_of_ne_nil hne
  have hc := hword c (by simp)
  rw [decode, if_neg (ne_quote_of_endsWord hc), if_neg (by simp [hdigit c rfl]),
    if_neg (by simp [isSymbol_of_endsWord hc]), decodeWord_of_forall hne hword]
  cases Keyword.ofText? (String.ofList (c :: cs)) <;> rfl

theorem endsWord_of_isDigit (h : c.isDigit = true) : endsWord c = false := by
  have hsymbols : ∀ d ∈ '"' :: Lexeme.symbols, d.isDigit = false := by simp [Lexeme.symbols]
  have hne : ∀ d ∈ '"' :: Lexeme.symbols, c ≠ d := by
    rintro d hd rfl
    simp [hsymbols c hd] at h
  have hsymbol : isSymbol c = false := by
    simpa [isSymbol] using fun hmem => hne c (List.mem_cons_of_mem _ hmem) rfl
  simp [endsWord, isBlank_of_isDigit h, hsymbol, hne '"' (by simp)]

end Words

theorem readsAs_keyword (k : Keyword) : ReadsAs k.text.toList (.keyword k) := by
  have hall : k.text.toList ≠ [] ∧ k.text.toList.all (!endsWord ·) = true ∧
      k.text.toList.head?.all (!·.isDigit) = true := by cases k <;> decide
  have hword : ∀ c ∈ k.text.toList, endsWord c = false := by simpa using hall.2.1
  have hdigit : ∀ c ∈ k.text.toList.head?, c.isDigit = false := by
    intro c hc
    simpa [Option.mem_def.1 hc] using hall.2.2
  refine readsAs_of_word hall.1 hword ?_
  rw [decode_word hall.1 hword hdigit, String.ofList_toList, Keyword.ofText?_text]

theorem readsAs_identifier {name : String} (h : (Kind.identifier name).Writable) :
    ReadsAs name.toList (.identifier name) := by
  obtain ⟨hne, hword, hdigit, hkeyword⟩ := h
  have hnone : Keyword.ofText? name = none :=
    Option.eq_none_iff_forall_ne_some.2 fun k hk => hkeyword k (Keyword.ofText?_eq_some_iff.1 hk)
  refine readsAs_of_word hne hword ?_
  rw [decode_word hne hword hdigit, String.ofList_toList, hnone]

theorem readsAs_integer {n : Nat} (h : n ≤ maxConstant) : ReadsAs n.repr.toList (.integer n) := by
  have hdigits : ∀ c ∈ n.repr.toList, c.isDigit = true := fun c => isDigit_of_mem_repr
  have hne : n.repr.toList ≠ [] := by
    rw [toList_repr]
    exact Nat.toDigits_ne_nil
  refine readsAs_of_word hne (fun c hc => endsWord_of_isDigit (hdigits c hc)) ?_
  have hspan := span_append (p := Char.isDigit) n.repr.toList [] hdigits (by simp)
  rw [List.append_nil] at hspan
  have hvalue := ofDigitChars_repr n
  generalize n.repr.toList = digits at *
  obtain ⟨c, cs, rfl⟩ := List.exists_cons_of_ne_nil hne
  have hc := hdigits c (by simp)
  rw [decode, if_neg (ne_quote_of_endsWord (endsWord_of_isDigit hc)), if_pos hc, hspan.1, hspan.2,
    Lexeme.decodeNumber, hvalue, if_neg (Nat.not_lt.2 h)]
  rfl

theorem readsAs_symbol {c : Char} (h : isSymbol c = true) : ReadsAs [c] (.symbol c) := by
  have hc : isBlank c = false ∧ c ≠ '"' ∧ c.isDigit = false := by
    have hsymbols : ∀ d ∈ Lexeme.symbols, isBlank d = false ∧ d ≠ '"' ∧ d.isDigit = false := by
      simp [Lexeme.symbols, isBlank]
    exact hsymbols c (by simpa [isSymbol] using h)
  obtain ⟨hblank, hquote, hdigit⟩ := hc
  refine ⟨fun {rest} hrest => ⟨c, rest, rfl, hblank, ?_⟩, fun _ => ?_, ?_⟩
  · rintro ⟨d, tail, htext, hd⟩
    obtain ⟨-, rfl⟩ := List.cons.inj htext
    have hblank := hrest d rfl
    rcases hd with rfl | rfl <;> exact absurd hblank (by decide)
  · rw [List.singleton_append, WholeText.cut?, if_neg hquote, if_pos h]
  · rw [decode, if_neg hquote, if_neg (by simp [hdigit]), h]
    rfl

theorem readsAs_string {content : String} (h : (Kind.string content).Writable) :
    ReadsAs (Kind.string content).written (.string content) := by
  have hquote : ∀ c ∈ content.toList, c ≠ '"' := fun c hc => (h c hc).1
  refine ⟨fun {rest} _ => ⟨'"', _, rfl, by decide, not_startsComment_of_ne (by decide)⟩,
    fun {rest} _ => ?_, ?_⟩
  · have hspan := span_append (p := fun d => d ≠ '"' && d ≠ '\n') content.toList ('"' :: rest)
      (fun c hc => by simp [h c hc]) (by simp)
    rw [Token.Kind.written, List.cons_append, List.cons_append, List.append_assoc,
      List.singleton_append, WholeText.cut?, if_pos rfl, hspan.1, hspan.2]
    rfl
  · have hspan := span_append (p := (· ≠ '"')) content.toList ['"']
      (fun c hc => by simpa using hquote c hc) (by simp)
    have hsmall : content.toList.any (maxConstant < ·.toNat) = false := by
      simpa using fun c hc => (h c hc).2.2
    rw [Token.Kind.written, List.cons_append, decode, if_pos rfl, Lexeme.decodeString, hspan.1,
      hspan.2, hsmall, String.ofList_toList]
    rfl

theorem readsAs_written {k : Kind} (h : k.Writable) : ReadsAs k.written k := by
  cases k with
  | keyword k => exact readsAs_keyword k
  | symbol c => exact readsAs_symbol h
  | identifier name => exact readsAs_identifier h
  | integer n => exact readsAs_integer h
  | string content => exact readsAs_string h

/-! ## Reading a row of tokens -/

theorem scan_of_spells {gap text : List Char} {kinds : List Kind} (hgap : Layout gap)
    (h : Spells kinds text) (hk : ∀ k ∈ kinds, k.Writable) :
    scan (gap ++ text) = (kinds.map fun k => (k, k.written), none) := by
  have hend : scan [] = ([], none) := scan_of_nil skipLayout_nil
  induction h generalizing gap with
  | nil => exact scan_of_nil (by rw [skipLayout_append hgap, skipLayout_nil])
  | single k =>
    have hparted : Parted [] := by simp [Parted]
    have hscan := (readsAs_written (hk k (by simp))).scan hgap hparted
    rwa [List.append_nil, hend] at hscan
  | @cons k k' ks separator text hsep _ ih =>
    rw [List.append_assoc, (readsAs_written (hk k (by simp))).scan hgap hsep.parted,
      ih hsep.layout fun j hj => hk j (List.mem_cons_of_mem _ hj)]
    rfl

theorem kinds_of_spells {kinds : List Kind} {text : List Char} (hk : ∀ k ∈ kinds, k.Writable)
    (h : Spells kinds text) :
    (TokenStream.ofSource (.ofChars text)).tokens.map (·.kind) = kinds ∧
      (TokenStream.ofSource (.ofChars text)).stop = none := by
  have hkinds := kinds_of_scan (scan_of_spells .nil h hk)
  rwa [List.nil_append, List.map_map, Function.comp_def, List.map_id'] at hkinds

/-- A text that spells tokens is read, and is read as these tokens. -/
theorem tokens_of_spells {kinds : List Kind} {text : String} (hk : ∀ k ∈ kinds, k.Writable)
    (h : Spells kinds text.toList) :
    (TokenStream.ofSource (.ofString text)).tokens.map (·.kind) = kinds ∧
      (TokenStream.ofSource (.ofString text)).stop = none :=
  kinds_of_spells hk h

/-! ## A string that looks like a comment, and comments that look like strings -/

def trickyText : String := "\"//\" /* \" */// \"\nx"

def trickyKinds : List Kind := [.string "//", .identifier "x"]

theorem spells_trickyText : Spells trickyKinds trickyText.toList := by
  have hline : Layout "// \"\n".toList := @Layout.line [' ', '"'] [] (by decide) .nil
  have hlayout : Layout "/* \" */// \"\n".toList := @Layout.block [' ', '"', ' '] _ (by decide) hline
  have hsep : Separator " /* \" */// \"\n".toList := .blank (by decide) hlayout
  have htext : trickyText.toList = (Kind.string "//").written ++ " /* \" */// \"\n".toList ++
    (Kind.identifier "x").written := by decide
  rw [htext]
  exact .cons _ hsep (.single _)

theorem tokens_trickyText :
    (∀ k ∈ trickyKinds, k.Writable) ∧ Spells trickyKinds trickyText.toList ∧
      (TokenStream.ofSource (.ofString trickyText)).tokens.map (·.kind) = trickyKinds ∧
      (TokenStream.ofSource (.ofString trickyText)).stop = none := by
  have hx : (Kind.identifier "x").Writable :=
    ⟨by decide, by simp [endsWord, isBlank, isSymbol, Lexeme.symbols], by simp,
      fun k => by cases k <;> decide⟩
  have hstring : (Kind.string "//").Writable := by
    intro c hc
    obtain rfl : c = '/' := by simpa using hc
    decide
  have hk : ∀ k ∈ trickyKinds, k.Writable := by simp [trickyKinds, hx, hstring]
  exact ⟨hk, spells_trickyText, tokens_of_spells hk spells_trickyText⟩

end Jack

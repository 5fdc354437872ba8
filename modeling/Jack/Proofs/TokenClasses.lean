import Jack.Lexeme.Grammar
import Jack.Proofs.Spelling
import Jack.Proofs.Tiling
import Mathlib.Data.List.Induction
import Mathlib.Data.Nat.Digits.Defs

/-!
# The classes of tokens

`Denotes` says which texts are tokens of a kind, and `Overflows` and `HoldsLarge` which are none for
a reason of their own. That is what `decode` tells (`decode_decides`): what is in a class is decoded
as such (`decode_of_denotes`, `decode_of_overflows`, `decode_of_holdsLarge`), and what is in none is
malformed (`classes`). So no text is in two classes.

The grammar tells the same (`classify_eq_decode`). Its alternatives begin with different characters,
and the one that begins with the first character of a text decides: no other takes any of it.

A scanner cuts only closed strings, single symbols, and words (`begins_of_cut`). So what it refuses
is a string with a character too large, or begins with a digit.
-/

namespace Jack.Lexeme

open Text
open Token (Kind)

/-! ## Characters and words -/

theorem of_mem_head?_dropWhile {p : Char → Bool} {text : List Char} :
    ∀ c ∈ (text.dropWhile p).head?, p c = false := by
  have hhead := List.head?_dropWhile_not p text
  intro c hc
  rw [Option.mem_def.1 hc] at hhead
  simpa using hhead

theorem closed_of_dropWhile {rest after : List Char} {quote : Char}
    (h : rest.dropWhile (· ≠ '"') = quote :: after) :
    quote = '"' ∧ '"' ∉ rest.takeWhile (· ≠ '"') ∧
      rest.takeWhile (· ≠ '"') ++ '"' :: after = rest := by
  have hsplit := List.takeWhile_append_dropWhile (p := (· ≠ '"')) (l := rest)
  rw [h] at hsplit
  have hquote : decide (quote ≠ '"') = false := of_mem_head?_dropWhile quote (by rw [h]; rfl)
  obtain rfl : quote = '"' := by simpa using hquote
  exact ⟨rfl, fun hmem => by simpa using List.mem_takeWhile_imp hmem, hsplit⟩

theorem of_isSymbol {c : Char} (h : isSymbol c = true) : c ≠ '"' ∧ c.isDigit = false := by
  have hsymbols : ∀ d ∈ symbols, d ≠ '"' ∧ d.isDigit = false := by simp [symbols]
  exact hsymbols c (by simpa [isSymbol] using h)

theorem decodeWord_of_mem {word : List Char} (h : ∃ c ∈ word, endsWord c = true) :
    decodeWord word = .error .malformed := by
  rw [decodeWord, if_pos (by simpa using .inr h)]

namespace Grammar

open Reading

/-! ### What the alternatives begin with -/

variable {text : List Char}

theorem refuses_stringConstant (h : ∀ c ∈ text.head?, c ≠ '"') : Refuses stringConstant text :=
  ((refuses_one fun c hc => by simpa using h c hc).followedBy).check _

theorem refuses_integerConstant (h : ∀ c ∈ text.head?, c.isDigit = false) :
    Refuses integerConstant text :=
  ((refuses_one h).followedBy).check _

theorem refuses_symbol (h : ∀ c ∈ text.head?, isSymbol c = false) : Refuses symbol text :=
  (refuses_one h).check _

theorem refuses_word (h : ∀ c ∈ text.head?, c.isDigit = true ∨ endsWord c = true) :
    Refuses word text :=
  ((refuses_one fun c hc => by rcases h c hc with h | h <;> simp [h]).followedBy).check _

theorem takes_stringConstant : Takes 2 stringConstant :=
  ((takes_one _).followedBy ((takes_many _).followedBy (takes_one _))).check (by decide) _

theorem takes_integerConstant : Takes 1 integerConstant :=
  ((takes_one _).followedBy (takes_many _)).check (by decide) _

theorem takes_symbol : Takes 1 symbol := (takes_one _).check (by decide) _

theorem takes_word : Takes 1 word := ((takes_one _).followedBy (takes_many _)).check (by decide) _

section Alternatives

variable (text) (m : Merging)

theorem alternatives_of_stringConstant (hinteger : Refuses integerConstant text)
    (hsymbol : Refuses symbol text) (hword : Refuses word text) :
    alternatives m text = stringConstant text := by
  have hconstants : stringConstant.orElse m integerConstant text = stringConstant text :=
    orElse_of_refuses_right hinteger rfl takes_stringConstant
  exact orElse_of_refuses_right hword
    (orElse_of_refuses_right hsymbol hconstants takes_stringConstant) takes_stringConstant

theorem alternatives_of_integerConstant (hstring : Refuses stringConstant text)
    (hsymbol : Refuses symbol text) (hword : Refuses word text) :
    alternatives m text = integerConstant text := by
  have hconstants : stringConstant.orElse m integerConstant text = integerConstant text :=
    orElse_of_refuses_left hstring rfl takes_integerConstant
  exact orElse_of_refuses_right hword
    (orElse_of_refuses_right hsymbol hconstants takes_integerConstant) takes_integerConstant

theorem alternatives_of_symbol (hstring : Refuses stringConstant text)
    (hinteger : Refuses integerConstant text) (hword : Refuses word text) :
    alternatives m text = symbol text :=
  orElse_of_refuses_right hword
    (orElse_of_refuses_left (hstring.orElse hinteger) rfl takes_symbol) takes_symbol

theorem alternatives_of_word (hstring : Refuses stringConstant text)
    (hinteger : Refuses integerConstant text) (hsymbol : Refuses symbol text) :
    alternatives m text = word text :=
  orElse_of_refuses_left ((hstring.orElse hinteger).orElse hsymbol) rfl takes_word

end Alternatives

/-! ### What the alternatives read -/

variable {c : Char} {rest : List Char}

theorem one_cons {p : Char → Bool} (h : p c = true) (rest : List Char) :
    one p (c :: rest) = .ok (c, rest) := if_pos h

theorem stringConstant_quote (rest : List Char) :
    stringConstant ('"' :: rest) = match rest.dropWhile (· ≠ '"') with
      | [] => refuse []
      | _ :: after =>
        if (rest.takeWhile (· ≠ '"')).any (maxConstant < ·.toNat) then
          .error (.flawed ('"' :: rest).length after.length .characterTooLarge)
        else .ok (.string (String.ofList (rest.takeWhile (· ≠ '"'))), after) := by
  have hquote : ∀ after, one (· = '"') ('"' :: after) = .ok ('"', after) :=
    one_cons (decide_eq_true rfl)
  simp only [stringConstant, check, followedBy, many_eq, hquote, bind, Except.bind]
  rcases hdrop : rest.dropWhile (· ≠ '"') with _ | ⟨quote, after⟩
  · rfl
  · obtain ⟨rfl, -⟩ := closed_of_dropWhile hdrop
    have hall : (rest.takeWhile (· ≠ '"')).all (·.toNat ≤ maxConstant) =
        !(rest.takeWhile (· ≠ '"')).any (maxConstant < ·.toNat) := by
      simp only [List.all_eq_not_any_not, ← decide_not, Nat.not_le]
    simp only [hquote, hall, pure, Except.pure]
    cases (rest.takeWhile (· ≠ '"')).any (maxConstant < ·.toNat) <;> rfl

theorem integerConstant_digit (h : c.isDigit = true) (rest : List Char) :
    integerConstant (c :: rest) =
      let value := Nat.ofDigitChars 10 (c :: rest.takeWhile Char.isDigit) 0
      let after := rest.dropWhile Char.isDigit
      if maxConstant < value then .error (.flawed (c :: rest).length after.length .numberTooLarge)
      else .ok (.integer value, after) := by
  have hdigits : ∀ d ∈ c :: rest.takeWhile Char.isDigit, d.isDigit = true :=
    List.forall_mem_cons.2 ⟨h, fun d hd => List.all_eq_true.1 List.all_takeWhile d hd⟩
  have hread : ∀ bound, decimalBelow? bound (c :: rest.takeWhile Char.isDigit) =
      if Nat.ofDigitChars 10 (c :: rest.takeWhile Char.isDigit) 0 < bound
      then some (Nat.ofDigitChars 10 (c :: rest.takeWhile Char.isDigit) 0) else none := by
    intro bound
    rw [decimalBelow?, dropPlus_of_digits hdigits, if_neg (by simp [h])]
  simp only [integerConstant, check, followedBy, many_eq, one_cons h, bind, Except.bind, pure,
    Except.pure, hread]
  generalize Nat.ofDigitChars 10 (c :: rest.takeWhile Char.isDigit) 0 = value
  rcases Nat.lt_or_ge maxConstant value with hlt | hle
  · have hnone : (if value < UInt16.size then some value else none).filter (· ≤ maxConstant) =
        none := by
      split <;> simp [Option.filter, Nat.not_le.2 hlt]
    rw [hnone, if_pos hlt]
  · have hsmall : value < UInt16.size := Nat.lt_of_le_of_lt hle (by decide)
    rw [if_pos hsmall, Option.filter_some_pos (by simpa using hle), if_neg (Nat.not_lt.2 hle)]

theorem symbol_symbol (h : isSymbol c = true) (rest : List Char) :
    symbol (c :: rest) = .ok (.symbol c, rest) := by
  rw [symbol, check, one_cons h]
  rfl

theorem word_letter (hdigit : c.isDigit = false) (hword : endsWord c = false) (rest : List Char) :
    word (c :: rest) = .ok (
      match Keyword.ofText? (String.ofList (c :: rest.takeWhile (!endsWord ·))) with
      | some k => .keyword k
      | none => .identifier (String.ofList (c :: rest.takeWhile (!endsWord ·))),
      rest.dropWhile (!endsWord ·)) := by
  have hfirst : (!c.isDigit && !endsWord c) = true := by simp [hdigit, hword]
  rw [word, check, followedBy, one_cons hfirst]
  simp only [many_eq]
  rfl

/-! ### What the grammar tells -/

variable (m : Merging)

theorem classify_of_ok {kind : Kind} {after : List Char}
    (h : alternatives m text = .ok (kind, after)) :
    classify m text = if after.isEmpty then .ok kind else .error .malformed := by
  simp only [classify, toEnd, h, bind, Except.bind, refuse]
  cases after <;> rfl

theorem classify_of_error {e : Failure} (h : alternatives m text = .error e) :
    classify m text = .error e.flaw := by
  simp only [classify, toEnd, h, bind, Except.bind]

theorem classify_quote (rest : List Char) : classify m ('"' :: rest) = decodeString rest := by
  have hread := alternatives_of_stringConstant ('"' :: rest) m
    (refuses_integerConstant (by simp)) (refuses_symbol (by simp [isSymbol, symbols]))
    (refuses_word (by simp [endsWord]))
  rw [stringConstant_quote] at hread
  unfold decodeString
  rcases hdrop : rest.dropWhile (· ≠ '"') with _ | ⟨quote, after⟩ <;> rw [hdrop] at hread
  · exact classify_of_error m hread
  · simp only at hread ⊢
    split at hread <;> rename_i hany
    · rw [if_pos hany]
      exact classify_of_error m hread
    · rw [if_neg hany]
      exact classify_of_ok m hread

theorem classify_digit (h : c.isDigit = true) (rest : List Char) :
    classify m (c :: rest) =
      decodeNumber (c :: rest.takeWhile Char.isDigit) (rest.dropWhile Char.isDigit) := by
  have hword := endsWord_of_isDigit h
  have hread := alternatives_of_integerConstant (c :: rest) m
    (refuses_stringConstant (by simpa using ne_quote_of_endsWord hword))
    (refuses_symbol (by simpa using isSymbol_of_endsWord hword))
    (refuses_word (by simp [h]))
  rw [integerConstant_digit h] at hread
  unfold decodeNumber
  simp only at hread ⊢
  split at hread <;> rename_i hlarge
  · rw [if_pos hlarge]
    exact classify_of_error m hread
  · rw [if_neg hlarge]
    exact classify_of_ok m hread

theorem classify_symbol (h : isSymbol c = true) (rest : List Char) :
    classify m (c :: rest) = if rest.isEmpty then .ok (.symbol c) else .error .malformed := by
  obtain ⟨hquote, hdigit⟩ := of_isSymbol h
  have hread := alternatives_of_symbol (c :: rest) m
    (refuses_stringConstant (by simpa using hquote))
    (refuses_integerConstant (by simpa using hdigit)) (refuses_word (by simp [endsWord, h]))
  exact classify_of_ok m (hread.trans (symbol_symbol h rest))

theorem classify_letter (hquote : c ≠ '"') (hdigit : c.isDigit = false)
    (hsymbol : isSymbol c = false) (rest : List Char) :
    classify m (c :: rest) = decodeWord (c :: rest) := by
  have hread := alternatives_of_word (c :: rest) m
    (refuses_stringConstant (by simpa using hquote))
    (refuses_integerConstant (by simpa using hdigit)) (refuses_symbol (by simpa using hsymbol))
  rcases hends : endsWord c with _ | _
  · rw [word_letter hdigit hends] at hread
    rw [classify_of_ok m hread]
    by_cases hrest : ∃ d ∈ rest, endsWord d = true
    · rw [decodeWord_of_mem (hrest.imp fun d hd => ⟨List.mem_cons_of_mem _ hd.1, hd.2⟩), if_neg]
      simpa using hrest
    · have hword : ∀ d ∈ rest, (!endsWord d) = true := by simpa using hrest
      rw [List.takeWhile_eq_self_iff.2 hword, List.dropWhile_eq_nil_iff.2 hword,
        decodeWord_of_forall (by simp) (by simpa [hends] using hword)]
      rfl
  · have hrefuses : Refuses word (c :: rest) := refuses_word (by simp [hends])
    rw [decodeWord_of_mem ⟨c, by simp, hends⟩, classify_of_error m (hread.trans hrefuses)]
    rfl

end Grammar

/-! ## The grammar and `decode` -/

section Decode

variable {c : Char}

theorem decode_quote (rest : List Char) : decode ('"' :: rest) = decodeString rest := by
  rw [decode, if_pos rfl]

theorem decode_digit (h : c.isDigit = true) (rest : List Char) :
    decode (c :: rest) =
      decodeNumber (c :: rest.takeWhile Char.isDigit) (rest.dropWhile Char.isDigit) := by
  rw [decode, if_neg (ne_quote_of_endsWord (endsWord_of_isDigit h)), if_pos h,
    List.takeWhile_cons_of_pos h, List.dropWhile_cons_of_pos h]

theorem decode_symbol (h : isSymbol c = true) (rest : List Char) :
    decode (c :: rest) = if rest.isEmpty then .ok (.symbol c) else .error .malformed := by
  obtain ⟨hquote, hdigit⟩ := of_isSymbol h
  rw [decode, if_neg hquote, if_neg (by simp [hdigit])]
  cases rest with
  | nil => simp [h]
  | cons d rest => simpa [h] using decodeWord_of_mem ⟨c, by simp, by simp [endsWord, h]⟩

theorem decode_letter (hquote : c ≠ '"') (hdigit : c.isDigit = false) (hsymbol : isSymbol c = false)
    (rest : List Char) : decode (c :: rest) = decodeWord (c :: rest) := by
  rw [decode, if_neg hquote, if_neg (by simp [hdigit]), if_neg (by simp [hsymbol])]

end Decode

/-- The grammar tells what `decode` tells, however failures are merged. -/
theorem classify_eq_decode (m : Merging) (text : List Char) :
    Grammar.classify m text = decode text := by
  cases text with
  | nil =>
    have hread := Grammar.alternatives_of_word [] m
      (Grammar.refuses_stringConstant (by simp)) (Grammar.refuses_integerConstant (by simp))
      (Grammar.refuses_symbol (by simp))
    exact Grammar.classify_of_error m (hread.trans (Grammar.refuses_word (by simp)))
  | cons c rest =>
    by_cases hquote : c = '"'
    · subst hquote
      rw [Grammar.classify_quote, decode_quote]
    · rcases hdigit : c.isDigit with _ | _
      · rcases hsymbol : isSymbol c with _ | _
        · rw [Grammar.classify_letter m hquote hdigit hsymbol,
            decode_letter hquote hdigit hsymbol]
        · rw [Grammar.classify_symbol m hsymbol, decode_symbol hsymbol]
      · rw [Grammar.classify_digit m hdigit, decode_digit hdigit]

/-! ## The classes -/

/-- The value of digits, the last of which counts ones, the one in front of it tens, and so on. -/
def decimal (digits : List Char) : Nat :=
  Nat.ofDigits 10 (digits.reverse.map fun c => c.toNat - '0'.toNat)

/-- The text is a token of the kind. -/
def Denotes (text : List Char) : Kind → Prop
  | .string content =>
    text = '"' :: (content.toList ++ ['"']) ∧
      ∀ c ∈ content.toList, c ≠ '"' ∧ c.toNat ≤ 32767
  | .integer value =>
    text ≠ [] ∧ (∀ c ∈ text, c.isDigit = true) ∧ decimal text = value ∧ value ≤ 32767
  | .symbol c => text = [c] ∧ c ∈ symbols
  | .keyword k => text = k.text.toList
  | .identifier name =>
    text = name.toList ∧ name ≠ "" ∧ (∀ c ∈ text, isBlank c = false ∧ c ∉ symbols ∧ c ≠ '"') ∧
      (∀ c ∈ text.head?, c.isDigit = false) ∧ ∀ k : Keyword, name ≠ k.text

/-- The digits that the text begins with, all of them, make a number that is too large. -/
def Overflows (text : List Char) : Prop :=
  ∃ digits after, text = digits ++ after ∧ digits ≠ [] ∧ (∀ c ∈ digits, c.isDigit = true) ∧
    (∀ c ∈ after.head?, c.isDigit = false) ∧ 32767 < decimal digits

/-- The text begins with a closed string that holds a character too large. -/
def HoldsLarge (text : List Char) : Prop :=
  ∃ content after, text = '"' :: (content ++ '"' :: after) ∧ '"' ∉ content ∧
    ∃ c ∈ content, 32767 < c.toNat

/-- What the text should be told to be: a token of a kind, or why it is none. -/
def Verdict (text : List Char) : Except Flaw Kind → Prop
  | .ok kind => Denotes text kind
  | .error .numberTooLarge => Overflows text
  | .error .characterTooLarge => HoldsLarge text
  | .error .malformed => (∀ kind, ¬ Denotes text kind) ∧ ¬ Overflows text ∧ ¬ HoldsLarge text

theorem decimal_eq (digits : List Char) : decimal digits = Nat.ofDigitChars 10 digits 0 := by
  induction digits using List.reverseRecOn with
  | nil => rfl
  | append_singleton digits c ih =>
    rw [decimal, List.reverse_append, Nat.ofDigitChars_append, ← ih]
    simp only [List.reverse_singleton, List.singleton_append, List.map_cons, Nat.ofDigits_cons,
      Nat.ofDigitChars_cons, Nat.ofDigitChars_nil]
    exact Nat.add_comm _ _

theorem endsWord_eq_false_iff {c : Char} :
    endsWord c = false ↔ isBlank c = false ∧ c ∉ symbols ∧ c ≠ '"' := by
  simp [endsWord, isSymbol, and_assoc]

section Classes

variable {text content digits after : List Char} {kind : Kind}

/-! ### What the classes are decoded as -/

theorem decode_of_closed (hquote : '"' ∉ content) (after : List Char) :
    decode ('"' :: (content ++ '"' :: after)) =
      if content.any (32767 < ·.toNat) then .error .characterTooLarge
      else if after.isEmpty then .ok (.string (String.ofList content))
      else .error .malformed := by
  have hspan := span_append (p := (· ≠ '"')) content ('"' :: after)
    (fun c hc => by simpa using ne_of_mem_of_not_mem hc hquote) (by simp)
  rw [decode_quote, decodeString, hspan.1, hspan.2, maxConstant]

theorem decode_of_digits (hne : digits ≠ []) (hdigits : ∀ c ∈ digits, c.isDigit = true)
    (hafter : ∀ c ∈ after.head?, c.isDigit = false) :
    decode (digits ++ after) =
      if 32767 < decimal digits then .error .numberTooLarge
      else if after.isEmpty then .ok (.integer (decimal digits))
      else .error .malformed := by
  obtain ⟨c, cs, rfl⟩ := List.exists_cons_of_ne_nil hne
  obtain ⟨hc, hcs⟩ := List.forall_mem_cons.1 hdigits
  have hspan := span_append cs after hcs hafter
  rw [List.cons_append, decode_digit hc, hspan.1, hspan.2, decodeNumber, decimal_eq, maxConstant]

theorem decode_of_denotes (h : Denotes text kind) : decode text = .ok kind := by
  cases kind with
  | string content =>
    obtain ⟨rfl, hcontent⟩ := h
    have hsmall : content.toList.any (32767 < ·.toNat) = false := by
      simpa using fun c hc => (hcontent c hc).2
    rw [decode_of_closed (fun hmem => (hcontent _ hmem).1 rfl), hsmall, String.ofList_toList]
    rfl
  | integer value =>
    obtain ⟨hne, hdigits, rfl, hle⟩ := h
    have hafter : ∀ c ∈ [].head?, Char.isDigit c = false := by simp
    have hdecode := decode_of_digits hne hdigits hafter
    rwa [List.append_nil, if_neg (Nat.not_lt.2 hle)] at hdecode
  | symbol c =>
    obtain ⟨rfl, hc⟩ := h
    exact decode_symbol (by simpa [isSymbol] using hc) []
  | keyword k =>
    obtain rfl := h
    exact (readsAs_keyword k).decode
  | identifier name =>
    obtain ⟨rfl, hne, hword, hdigit, hkeyword⟩ := h
    exact (readsAs_identifier ⟨by simpa using hne, fun c hc => endsWord_eq_false_iff.2 (hword c hc),
      hdigit, fun k => (hkeyword k).symm⟩).decode

theorem decode_of_overflows (h : Overflows text) : decode text = .error .numberTooLarge := by
  obtain ⟨digits, after, rfl, hne, hdigits, hafter, hlarge⟩ := h
  rw [decode_of_digits hne hdigits hafter, if_pos hlarge]

theorem decode_of_holdsLarge (h : HoldsLarge text) : decode text = .error .characterTooLarge := by
  obtain ⟨content, after, rfl, hquote, hlarge⟩ := h
  rw [decode_of_closed hquote, if_pos (by simpa using hlarge)]

/-! ### What decodes is in a class -/

theorem classes_of_quote (rest : List Char) :
    (∃ kind, Denotes ('"' :: rest) kind) ∨ HoldsLarge ('"' :: rest) ∨
      decode ('"' :: rest) = .error .malformed := by
  rcases hdrop : rest.dropWhile (· ≠ '"') with _ | ⟨quote, after⟩
  · refine .inr (.inr ?_)
    rw [decode_quote, decodeString, hdrop]
  · obtain ⟨rfl, hquote, hsplit⟩ := closed_of_dropWhile hdrop
    rw [← hsplit]
    generalize rest.takeWhile (· ≠ '"') = content at hquote
    by_cases hlarge : ∃ c ∈ content, 32767 < c.toNat
    · exact .inr (.inl ⟨content, after, rfl, hquote, hlarge⟩)
    · have hsmall : ∀ c ∈ content, c.toNat ≤ 32767 := by simpa using hlarge
      cases after with
      | nil =>
        refine .inl ⟨.string (String.ofList content), ?_⟩
        rw [Denotes, String.toList_ofList]
        exact ⟨rfl, fun c hc => ⟨ne_of_mem_of_not_mem hc hquote, hsmall c hc⟩⟩
      | cons d after =>
        refine .inr (.inr ?_)
        rw [decode_of_closed hquote, if_neg (by simpa using hsmall)]
        rfl

theorem classes_of_digit {c : Char} (h : c.isDigit = true) (rest : List Char) :
    (∃ kind, Denotes (c :: rest) kind) ∨ Overflows (c :: rest) ∨
      decode (c :: rest) = .error .malformed := by
  have hsplit := List.takeWhile_append_dropWhile (p := Char.isDigit) (l := c :: rest)
  have hne : (c :: rest).takeWhile Char.isDigit ≠ [] := by simp [h]
  have hdigits : ∀ d ∈ (c :: rest).takeWhile Char.isDigit, d.isDigit = true := fun d hd =>
    List.all_eq_true.1 List.all_takeWhile d hd
  have hafter : ∀ d ∈ ((c :: rest).dropWhile Char.isDigit).head?, d.isDigit = false :=
    of_mem_head?_dropWhile
  rw [← hsplit]
  generalize (c :: rest).takeWhile Char.isDigit = digits at hne hdigits
  generalize (c :: rest).dropWhile Char.isDigit = after at hafter
  rcases Nat.lt_or_ge 32767 (decimal digits) with hlt | hle
  · exact .inr (.inl ⟨digits, after, rfl, hne, hdigits, hafter, hlt⟩)
  · cases after with
    | nil =>
      rw [List.append_nil]
      exact .inl ⟨.integer (decimal digits), hne, hdigits, rfl, hle⟩
    | cons d after =>
      refine .inr (.inr ?_)
      rw [decode_of_digits hne hdigits hafter, if_neg (Nat.not_lt.2 hle)]
      rfl

theorem denotes_word {word : List Char} (hne : word ≠ []) (hword : ∀ c ∈ word, endsWord c = false)
    (hdigit : ∀ c ∈ word.head?, c.isDigit = false) : ∃ kind, Denotes word kind := by
  rcases hkeyword : Keyword.ofText? (String.ofList word) with _ | k
  · refine ⟨.identifier (String.ofList word), by simp, by simpa using hne,
      fun c hc => endsWord_eq_false_iff.1 (hword c hc), hdigit, ?_⟩
    rintro k hk
    simp [hk] at hkeyword
  · refine ⟨.keyword k, ?_⟩
    rw [Denotes, Keyword.ofText?_eq_some_iff.1 hkeyword, String.toList_ofList]

theorem classes_of_letter {c : Char} (hquote : c ≠ '"') (hdigit : c.isDigit = false)
    (rest : List Char) :
    (∃ kind, Denotes (c :: rest) kind) ∨ decode (c :: rest) = .error .malformed := by
  rcases hsymbol : isSymbol c with _ | _
  · by_cases hword : ∃ d ∈ c :: rest, endsWord d = true
    · rw [decode_letter hquote hdigit hsymbol]
      exact .inr (decodeWord_of_mem hword)
    · exact .inl (denotes_word (by simp) (by simpa using hword) (by simpa using hdigit))
  · cases rest with
    | nil => exact .inl ⟨.symbol c, rfl, by simpa [isSymbol] using hsymbol⟩
    | cons d rest => exact .inr (decode_symbol hsymbol (d :: rest))

theorem classes (text : List Char) :
    (∃ kind, Denotes text kind) ∨ Overflows text ∨ HoldsLarge text ∨
      decode text = .error .malformed := by
  cases text with
  | nil => exact .inr (.inr (.inr rfl))
  | cons c rest =>
    by_cases hquote : c = '"'
    · subst hquote
      exact (classes_of_quote rest).imp_right .inr
    · rcases hdigit : c.isDigit with _ | _
      · exact (classes_of_letter hquote hdigit rest).imp_right (.inr ∘ .inr)
      · exact (classes_of_digit hdigit rest).imp_right (Or.imp_right .inr)

theorem decode_of_verdict {r : Except Flaw Kind} (h : Verdict text r) : decode text = r := by
  match r, h with
  | .ok kind, h => exact decode_of_denotes h
  | .error .numberTooLarge, h => exact decode_of_overflows h
  | .error .characterTooLarge, h => exact decode_of_holdsLarge h
  | .error .malformed, ⟨hdenotes, hoverflows, hlarge⟩ =>
    rcases classes text with ⟨kind, h⟩ | h | h | h
    · exact absurd h (hdenotes kind)
    · exact absurd h hoverflows
    · exact absurd h hlarge
    · exact h

theorem verdict_decode (text : List Char) : Verdict text (decode text) := by
  rcases classes text with ⟨kind, h⟩ | h | h | h
  · rwa [decode_of_denotes h]
  · rwa [decode_of_overflows h]
  · rwa [decode_of_holdsLarge h]
  · rw [h]
    refine ⟨fun kind hdenotes => ?_, fun hoverflows => ?_, fun hlarge => ?_⟩
    · simp [decode_of_denotes hdenotes] at h
    · simp [decode_of_overflows hoverflows] at h
    · simp [decode_of_holdsLarge hlarge] at h

theorem denotes_of_decode (h : decode text = .ok kind) : Denotes text kind := by
  have hverdict := verdict_decode text
  rwa [h] at hverdict

end Classes

/-! ## The lexemes of a scanner -/

theorem holdsLarge_of_rejected {content : List Char} {flaw : Flaw} (hquote : '"' ∉ content)
    (h : decode ('"' :: (content ++ ['"'])) = .error flaw) :
    HoldsLarge ('"' :: (content ++ ['"'])) := by
  rw [decode_of_closed hquote] at h
  split at h
  · rename_i hlarge
    exact ⟨content, [], rfl, hquote, by simpa using hlarge⟩
  · simp at h

/-- Of the lexemes that are cut where no blank stands, only strings and what begins with a digit can
be no tokens. -/
theorem begins_of_cut {cs lexeme after : List Char} {flaw : Flaw}
    (hblank : ∀ c ∈ cs.head?, isBlank c = false) (hcut : cut? cs = some (lexeme, after))
    (h : decode lexeme = .error flaw) :
    lexeme.head? = some '"' ∧ HoldsLarge lexeme ∨ ∃ c ∈ lexeme.head?, c.isDigit = true := by
  cases cs with
  | nil => simp [cut?] at hcut
  | cons c rest =>
    simp only [cut?] at hcut
    split at hcut
    · rename_i hc
      subst hc
      split at hcut
      · simp at hcut
      · rename_i quote behind hdrop
        obtain ⟨rfl, -⟩ := Prod.mk.inj (Option.some.inj hcut)
        obtain ⟨rfl, hquote, -⟩ := closed_of_dropWhile hdrop
        exact .inl ⟨rfl, holdsLarge_of_rejected hquote h⟩
    · rename_i hquote
      split at hcut
      · rename_i hsymbol
        obtain ⟨rfl, -⟩ := Prod.mk.inj (Option.some.inj hcut)
        simp [decode_symbol hsymbol] at h
      · rename_i hsymbol
        obtain ⟨rfl, -⟩ := Prod.mk.inj (Option.some.inj hcut)
        rcases hdigit : c.isDigit with _ | _
        · have hc : endsWord c = false := by
            simpa [endsWord, hquote, hblank c rfl] using hsymbol
          have hword : ∀ d ∈ c :: rest.takeWhile (!endsWord ·), endsWord d = false :=
            List.forall_mem_cons.2 ⟨hc, fun d hd => by simpa using List.mem_takeWhile_imp hd⟩
          obtain ⟨kind, hdenotes⟩ := denotes_word (by simp) hword (by simpa using hdigit)
          simp [decode_of_denotes hdenotes] at h
        · exact .inr ⟨c, rfl, hdigit⟩

theorem begins_of_lexeme {s : Scanner} {e : ScanError} {text : List Char}
    (hblank : ∀ c ∈ s.rest.head?, isBlank c = false) (h : s.lexeme.1 = .error e)
    (htext : e.lexeme? = some (String.ofList text)) :
    text.head? = some '"' ∧ HoldsLarge text ∨ ∃ c ∈ text.head?, c.isDigit = true := by
  unfold Scanner.lexeme at h
  split at h
  · obtain rfl := Except.error.inj h
    simp [ScanError.lexeme?] at htext
  · rename_i cs rest hcut
    simp only at h
    split at h
    · simp at h
    · rename_i flaw hdecode
      obtain rfl := Except.error.inj h
      rw [(ScanError.lexeme?_ofFlaw ..).1] at htext
      obtain rfl := String.ofList_injective (Option.some.inj htext)
      exact begins_of_cut hblank hcut hdecode

theorem begins_of_next {s : Scanner} {e : ScanError} {text : List Char} (h : s.next.1 = .error e)
    (htext : e.lexeme? = some (String.ofList text)) :
    text.head? = some '"' ∧ HoldsLarge text ∨ ∃ c ∈ text.head?, c.isDigit = true := by
  fun_induction Scanner.next s with
  | case1 => simp at h
  | case2 =>
    obtain rfl := Except.error.inj h
    simp [ScanError.lexeme?] at htext
  | case3 s s' hr line pending hp ih => exact ih h
  | case4 s s' hr result after hl =>
    have hblank : ∀ c ∈ s'.rest.head?, isBlank c = false := of_mem_head?_dropWhile
    refine begins_of_lexeme hblank ?_ htext
    rw [hl]
    cases result <;> simp_all [Except.map]

/-- What a text is told to be is what the classes of tokens say, and no text is in two of them. The
grammar agrees, however failures are merged. Of the lexemes of a source only a string with a
character too large, and what begins with a digit, are refused. -/
theorem decode_decides (m : Merging) (text : List Char) :
    Grammar.classify m text = decode text ∧
      (∀ r, decode text = r ↔ Verdict text r) ∧
      (∀ kind kind', Denotes text kind → Denotes text kind' → kind = kind') ∧
      ∀ (s s' : Scanner) (e : ScanError), s.next = (.error e, s') →
        e.lexeme? = some (String.ofList text) →
        text.head? = some '"' ∧ HoldsLarge text ∨ ∃ c ∈ text.head?, c.isDigit = true := by
  refine ⟨classify_eq_decode m text, fun r => ⟨fun h => h ▸ verdict_decode text,
    decode_of_verdict⟩, fun kind kind' h h' => ?_, fun s s' e h => begins_of_next (by rw [h])⟩
  exact Except.ok.inj ((decode_of_denotes h).symm.trans (decode_of_denotes h'))

/-- A number that is too large, with a letter behind it. -/
def largeNumber : List Char := "0032768é".toList

def beforeLargeNumber : Scanner := { pending := [], rest := " 0032768é;".toList }

theorem decode_decides_largeNumber :
    (Grammar.classify .furthest largeNumber = .error .numberTooLarge ∧ Overflows largeNumber ∧
        ∀ kind, ¬ Denotes largeNumber kind) ∧
      ∃ e s', beforeLargeNumber.next = (.error e, s') ∧
        e.lexeme? = some (String.ofList largeNumber) ∧
        ∃ c ∈ largeNumber.head?, c.isDigit = true := by
  obtain ⟨hgrammar, hverdict, -, hbegins⟩ := decode_decides .furthest largeNumber
  have hdecode : decode largeNumber = .error .numberTooLarge := by decide
  have hnext : beforeLargeNumber.next = (.error (.numberTooLarge "0032768é" ⟨1, 10⟩),
      { pending := [], rest := [';'], offset := 10 }) := by
    rw [Scanner.next_of_lexeme (by decide)]
    rfl
  refine ⟨⟨hgrammar.trans hdecode, (hverdict _).1 hdecode, fun kind h => ?_⟩, _, _, hnext, rfl,
    (hbegins _ _ _ hnext rfl).resolve_left ?_⟩
  · rw [(hverdict (.ok kind)).2 h] at hdecode
    simp at hdecode
  · exact fun h => absurd h.1 (by decide)

end Jack.Lexeme

import Jack.Compiler.Run
import Jack.Proofs.Tiling
import Jack.Proofs.Tokens
import Jack.Report

/-!
# Errors point at the text they name

A compilation gets its spans from tokens, and carries some of them along until the name is looked up
(`Goal.Quotes`). Whatever it does on the way, an error that has a span has that of the token whose
lexeme it names, or it is the lexical error behind the tokens (`Blames`, `keeps_step`). Tokens and
lexical errors stand where their spans say (`Tiling`), so the span of an error begins and ends
between characters, and the report points out the same text (`points_of_compile`).
-/

namespace Jack

open Text

/-- The text of the source that the message quotes as the one at fault. -/
def Error.named? : Error → Option String
  | .scan e => e.lexeme?
  | .unexpectedToken _ found _ | .trailingInput _ found _ => some found
  | .undefinedSymbol name _ | .alreadyDefined name _ | .invalidCallTarget name _ _ _ => some name
  | .unexpectedEnd _ | .emit _ => none

namespace Compiler

open State Goal

/-- The error is the one behind the tokens, or names a token and has its span, or is about the
end. -/
inductive Blames (input : TokenStream) : Error → Prop
  | scan {e : ScanError} (h : input.stop = some e) : Blames input (.scan e)
  | unexpectedEnd {expected : String} : Blames input (.unexpectedEnd expected)
  | token {e : Error} {t : Token} (ht : t ∈ input.tokens) (hnamed : e.named? = some t.lexeme)
    (hspan : e.span? = some t.span) : Blames input e

/-- There is a token with this lexeme and span. -/
def Quoted (input : TokenStream) (name : String) (span : Span) : Prop :=
  ∃ t ∈ input.tokens, t.lexeme = name ∧ t.span = span

/-- A name that the goal has read before is that of a token, and so is its span. -/
def Goal.Quotes (input : TokenStream) : Goal → Prop
  | named name span | call name span | qualifiedCall name span => Quoted input name span
  | _ => True

/-- The state is on the way through the input. -/
structure State.Within (input : TokenStream) (s : State) : Prop where
  tokens : s.input.tokens <:+ input.tokens
  stop : s.input.stop = input.stop

/-- The result is as described, or an error that the input is to blame for. -/
def Keeps {α : Type} (input : TokenStream) (holds : α → Prop) (result : Except Error α) : Prop :=
  match result with
  | .ok a => holds a
  | .error e => Blames input e

section Keeps

variable {α β : Type} {input : TokenStream} {holds : α → Prop} {holds' : β → Prop}
  {x : Except Error α} {f : α → Except Error β}

theorem Keeps.bind (hx : Keeps input holds x) (hf : ∀ a, holds a → Keeps input holds' (f a)) :
    Keeps input holds' (x >>= f) := by
  cases x with
  | error e => exact hx
  | ok a => exact hf a hx

variable {s : State} {name typeName : String} {span : Span} {t : Token}

theorem State.Within.mem (h : s.Within input) (ht : s.current? = some t) : t ∈ input.tokens :=
  h.tokens.subset (List.mem_of_mem_head? ht)

theorem keeps_drop (h : s.Within input) (ht : s.current? = some t) :
    Keeps input (Within input) s.drop := by
  obtain ⟨⟨tokens, stop⟩, env⟩ := s
  obtain ⟨htokens, hstop⟩ := h
  simp only at htokens hstop
  unfold drop
  split
  · rename_i hinput
    simp only [TokenStream.mk.injEq] at hinput
    exact .scan (hstop ▸ hinput.2)
  · rename_i hinput
    simp only [TokenStream.mk.injEq] at hinput
    obtain ⟨rfl, rfl⟩ := hinput
    exact ⟨(List.tail_suffix _).trans htokens, hstop⟩

theorem keeps_accept? (h : s.Within input) (cls : Token.Kind → Option α) :
    Keeps input (fun taken => ∀ p ∈ taken, Within input p.2) (s.accept? cls) := by
  unfold accept?
  split
  · rintro p ⟨⟩
  · rename_i hcls
    obtain ⟨t, ht, -⟩ := Option.bind_eq_some_iff.1 hcls
    refine (keeps_drop h ht).bind fun s' hs' => ?_
    rintro p ⟨⟩
    exact hs'

theorem keeps_require (h : s.Within input) (expected : String) (cls : Token.Kind → Option α) :
    Keeps input (fun (a, span, s') => s'.Within input ∧
      ∃ t ∈ input.tokens, cls t.kind = some a ∧ t.span = span) (s.require expected cls) := by
  unfold require
  split
  · exact .unexpectedEnd
  · rename_i t ht
    split
    · exact .token (h.mem ht) rfl rfl
    · rename_i a ha
      exact (keeps_drop h ht).bind fun s' hs' => ⟨hs', t, h.mem ht, ha, rfl⟩

theorem keeps_requireSymbol (h : s.Within input) (c : Char) :
    Keeps input (Within input) (s.requireSymbol c) :=
  (keeps_require h _ _).bind fun _ ha => ha.1

theorem keeps_requireKeyword (h : s.Within input) (k : Keyword) :
    Keeps input (Within input) (s.requireKeyword k) :=
  (keeps_require h _ _).bind fun _ ha => ha.1

theorem keeps_requireType (h : s.Within input) :
    Keeps input (fun p => Within input p.2) s.requireType :=
  (keeps_require h _ _).bind fun _ ha => ha.1

theorem keeps_declare (h : s.Within input) (hquoted : Quoted input name span) (kind : Symbol.Kind) :
    Keeps input (Within input) (s.declare name typeName kind span) := by
  obtain ⟨t, ht, rfl, rfl⟩ := hquoted
  unfold declare
  split
  · exact .token ht rfl rfl
  · exact ⟨h.tokens, h.stop⟩

theorem keeps_meaning (hquoted : Quoted input name span) :
    Keeps input (fun _ => True) (s.meaning name span) := by
  obtain ⟨t, ht, rfl, rfl⟩ := hquoted
  unfold meaning
  split
  · trivial
  · exact .token ht rfl rfl

end Keeps

/-- The identifiers of the input are spelled as their names. -/
def Spelled (input : TokenStream) : Prop :=
  ∀ t ∈ input.tokens, ∀ name, t.kind = .identifier name → t.lexeme = name

section Steps

variable {input : TokenStream} {s : State} {name subroutine : String} {span : Span} {t : Token}

attribute [local simp] Quotes

theorem keeps_requireName (hspelled : Spelled input) (h : s.Within input) (expected : String) :
    Keeps input (fun (name, span, s') => s'.Within input ∧ Quoted input name span)
      (s.requireName expected) := by
  have hrequire := keeps_require h expected identifier?
  unfold requireName
  cases hresult : s.require expected identifier? with
  | error e => rwa [hresult] at hrequire
  | ok taken =>
    rw [hresult] at hrequire
    obtain ⟨hs', t, ht, hname, hspan⟩ := hrequire
    refine ⟨hs', t, ht, ?_, hspan⟩
    cases hkind : t.kind <;>
      simp only [hkind, identifier?, reduceCtorEq, Option.some.injEq] at hname
    exact hname ▸ hspelled t ht _ hkind

/-- What a step leaves: goals that quote the input, and a state on the way through it. -/
def Left (input : TokenStream) (left : List Goal × State) : Prop :=
  left.2.Within input ∧ ∀ g ∈ left.1, g.Quotes input

theorem keeps_stepTerm (hspelled : Spelled input) (h : s.Within input) (ht : t ∈ input.tokens) :
    Keeps input (Left input) (stepTerm s t) := by
  unfold stepTerm
  split
  case h_7 name hkind => exact ⟨h, by simpa using ⟨t, ht, hspelled t ht _ hkind, rfl⟩⟩
  case h_8 c _ =>
    split
    · exact ⟨h, by simp⟩
    · split
      · exact ⟨h, by simp⟩
      · split
        · exact ⟨h, by simp⟩
        · exact .token ht rfl rfl
  case h_9 => exact .token ht rfl rfl
  all_goals exact ⟨h, by simp⟩

theorem keeps_stepQualified (hquoted : Quoted input name span) :
    Keeps input (fun goals => ∀ g ∈ goals, g.Quotes input)
      (stepQualified s name subroutine span) := by
  obtain ⟨t, ht, rfl, rfl⟩ := hquoted
  unfold stepQualified
  split
  · split
    · exact .token ht rfl rfl
    · simp [Keeps]
  · simp [Keeps]

theorem quotes_stepStatement (h : s.Within input) (kind : StatementKind) :
    Left input (stepStatement s kind) := by
  cases kind <;> exact ⟨⟨h.tokens, h.stop⟩, by
    simp [stepStatement, ifStatement, whileStatement, condition, block]⟩

/-- A step is to blame the input for its errors, as far as its goal quotes that. -/
theorem keeps_step (hspelled : Spelled input) (h : s.Within input) {g : Goal}
    (hg : g.Quotes input) :
    Keeps input (Left input) (step s g) := by
  have left_nil : ∀ {s' : State}, s'.Within input → Left input ([], s') := fun h => ⟨h, by simp⟩
  cases g <;> simp only [step]
  case emit | note => exact left_nil h
  case prologue | expression => exact ⟨h, by simp⟩
  case parameters | returnValue => exact ⟨h, by split <;> simp⟩
  case symbol => exact (keeps_requireSymbol h _).bind fun _ hs => left_nil hs
  case arguments =>
    exact (keeps_requireSymbol h _).bind fun _ hs => ⟨hs, by simp⟩
  case classDeclaration =>
    exact (keeps_requireKeyword h _).bind fun _ hs => ⟨hs, by simp⟩
  case className | subroutineName =>
    exact (keeps_requireName hspelled h _).bind fun _ hs =>
      ⟨⟨hs.1.tokens, hs.1.stop⟩, by simp⟩
  case doCall =>
    exact (keeps_requireName hspelled h _).bind fun _ hs => ⟨hs.1, by simpa using hs.2⟩
  case parameter | variableType =>
    exact (keeps_requireType h).bind fun _ hs => ⟨hs, by simp⟩
  case parameterName | variableName =>
    refine (keeps_requireName hspelled h _).bind fun _ hs => ?_
    exact (keeps_declare hs.1 hs.2 _).bind fun _ hs' => ⟨hs', by simp⟩
  case classVariables | moreParameters | localVariables | moreVariables | operators | moreArguments
      | elseBranch | subroutines =>
    refine (keeps_accept? h _).bind ?_
    rintro (_ | ⟨_, s₁⟩) hs
    · exact ⟨h, by simp [closeCall]⟩
    · exact ⟨hs _ rfl, by simp [block]⟩
  case returnType =>
    refine (keeps_accept? h _).bind ?_
    rintro (_ | ⟨_, s₁⟩) hs
    · exact (keeps_requireType h).bind fun _ hs => left_nil hs
    · exact left_nil (hs _ rfl)
  case statements =>
    refine (keeps_accept? h _).bind ?_
    rintro (_ | ⟨kind, s₁⟩) hs
    · exact left_nil h
    · obtain ⟨hreads, hquotes⟩ := quotes_stepStatement (hs _ rfl) kind
      exact ⟨hreads, List.forall_mem_append.2 ⟨hquotes, by simp⟩⟩
  case letTarget =>
    refine (keeps_requireName hspelled h _).bind fun _ hs => ?_
    exact (keeps_meaning hs.2).bind fun _ _ => ⟨hs.1, by simp⟩
  case assignment | argumentList =>
    split <;> exact ⟨h, by simp [index, closeCall]⟩
  case term =>
    split
    · exact .unexpectedEnd
    · rename_i t ht
      exact (keeps_drop h ht).bind fun _ hs => keeps_stepTerm hspelled hs (h.mem ht)
  case named =>
    split
    · exact (keeps_meaning hg).bind fun _ _ => ⟨h, by simp [index]⟩
    · split
      · exact ⟨h, by simpa using hg⟩
      · exact (keeps_meaning hg).bind fun _ _ => ⟨h, by simp⟩
  case call =>
    split
    · exact ⟨h, by simp⟩
    · exact (keeps_require h _ _).bind fun _ hs => ⟨hs.1, by simpa using hg⟩
  case qualifiedCall =>
    refine (keeps_requireName hspelled h _).bind fun _ hs => ?_
    exact (keeps_stepQualified hg).bind fun _ hquotes => ⟨hs.1, hquotes⟩
  case endOfClass =>
    split
    · exact left_nil h
    · rename_i t ht
      exact .token (h.mem ht) rfl rfl

variable {σ : Type} [Sink σ]

theorem blames_of_run (hspelled : Spelled input) {agenda : List Goal} {sink : σ} {e : Error}
    (h : s.Within input) (hagenda : ∀ g ∈ agenda, g.Quotes input)
    (herror : (run agenda s sink).1 = .error e) :
    Blames input e ∨ ∃ reason, e = .emit reason := by
  have hstep : ∀ {g : Goal} {goals agenda : List Goal} {s s' : State},
      s.Within input ∧ (∀ g' ∈ g :: agenda, g'.Quotes input) → step s g = .ok (goals, s') →
      s'.Within input ∧ ∀ g' ∈ goals ++ agenda, g'.Quotes input := by
    rintro g goals agenda s s' ⟨h, hagenda⟩ hs
    obtain ⟨hg, hagenda⟩ := List.forall_mem_cons.1 hagenda
    have hkeeps := keeps_step hspelled h hg
    rw [hs] at hkeeps
    exact ⟨hkeeps.1, List.forall_mem_append.2 ⟨hkeeps.2, hagenda⟩⟩
  rcases step_error_of_run (P := fun agenda s => s.Within input ∧ ∀ g ∈ agenda, g.Quotes input)
    hstep ⟨h, hagenda⟩ herror with hemit | ⟨g, agenda', s', ⟨h', hagenda'⟩, hs⟩
  · exact .inr hemit
  · have hkeeps := keeps_step hspelled h' (List.forall_mem_cons.1 hagenda').1
    rw [hs] at hkeeps
    exact .inl hkeeps

theorem blames_of_compile {source : Source} {sink : σ} {e : Error}
    (h : (compile source sink).1 = .error e) :
    Blames (.ofSource source) e ∨ ∃ reason, e = .emit reason := by
  unfold compile compileTokens at h
  split at h
  · rename_i hinput
    rw [hinput, ← Except.error.inj h]
    exact .inl (.scan rfl)
  · refine blames_of_run (fun t ht name hk => (TokenStream.isName_of_mem ht hk).1)
      ⟨List.suffix_refl _, rfl⟩ ?_ h
    simp

end Steps

end Compiler

/-! ## Places in a text -/

/-- The span of the error is that of a part of the text, which is the text that the error names. -/
theorem Compiler.Blames.marks {text : String} {e : Error} {span : Span}
    (h : Blames (.ofSource (.ofString text)) e) (hspan : e.span? = some span) :
    ∃ part, part ≠ [] ∧ span.Marks text.toList part ∧
      ∀ name ∈ e.named?, name = String.ofList part := by
  have htiling := TokenStream.tiling_ofString text
  cases h with
  | @scan e h =>
    rw [h] at htiling
    obtain ⟨front, part, back, htext, hfaults, hpart⟩ := htiling.faults [] rfl
    obtain ⟨after, rfl⟩ := hfaults.exists_append
    refine ⟨part, hfaults.ne_nil, ⟨front, after, htext, ?_⟩, hfaults.lexeme_eq⟩
    exact Option.some.inj (hspan.symm.trans hpart)
  | unexpectedEnd => simp [Error.span?] at hspan
  | token ht hnamed hspan' =>
    obtain ⟨hne, hmarks⟩ := htiling.marks [] rfl _ ht
    obtain rfl := Option.some.inj (hspan'.symm.trans hspan)
    refine ⟨_, hne, hmarks, ?_⟩
    rw [hnamed]
    rintro name ⟨⟩
    exact String.ofList_toList.symm

namespace Text

theorem charsBefore?_le {cs : List Char} {seen bytes n : Nat}
    (h : charsBefore? seen bytes cs = some n) : n ≤ seen + cs.length := by
  induction cs generalizing seen bytes with
  | nil =>
    simp only [charsBefore?] at h
    split at h <;> simp_all
  | cons c cs ih =>
    simp only [charsBefore?] at h
    rw [List.length_cons]
    split at h
    · simp only [Option.some.injEq] at h
      omega
    · split at h
      · have := ih h
        omega
      · simp at h

theorem charOffset_le (cs : List Char) (bytes : Nat) : charOffset cs bytes ≤ cs.length := by
  unfold charOffset
  cases h : charsBefore? 0 bytes cs with
  | none => exact Nat.le_refl _
  | some n => simpa using charsBefore?_le h

end Text

open Report

/-- The report points out the characters that stand in the span. -/
theorem Span.Marks.charRange {text part : List Char} {span : Span} {e : Error}
    (h : span.Marks text part) (hspan : e.span? = some span) :
    ∃ before after, text = before ++ (part ++ after) ∧
      Report.charRange text e = (before.length, before.length + part.length) := by
  obtain ⟨before, after, rfl, rfl⟩ := h
  refine ⟨before, after, rfl, ?_⟩
  have hstop := charOffset_append (before ++ part) after
  rw [List.append_assoc, byteSize_append, List.length_append] at hstop
  rw [Report.charRange, place, hspan, Option.getD_some, ofPart, charOffset_append, hstop]

theorem charRange_of_no_span (text : List Char) {e : Error} (h : e.span? = none) :
    (charRange text e).1 ≤ (charRange text e).2 ∧ (charRange text e).2 ≤ text.length := by
  have hend := charOffset_append text []
  rw [List.append_nil] at hend
  rw [charRange, place, h, Option.getD_none, hend]
  exact ⟨charOffset_le _ _, Nat.le_refl _⟩

/-- The span and the range of a report hold the same text, and it is what the error names. -/
structure Error.Points (text : String) (e : Error) (span : Span) (range : Nat × Nat)
    (part : List Char) : Prop where
  bytes : span.Shows text (String.ofList part)
  named : ∀ name ∈ e.named?, name = String.ofList part
  lt : range.1 < range.2
  le : range.2 ≤ text.toList.length
  chars : (text.toList.drop range.1).take (range.2 - range.1) = part

/-- Every error that has a span points at the text it names, in bytes and in characters; and no
error makes the report point backwards or past the end. -/
theorem Compiler.points_of_compile {σ : Type} [Sink σ] {text : String} {sink : σ} {e : Error}
    (h : (compile (.ofString text) sink).1 = .error e) :
    (∀ span, e.span? = some span → ∃ part, e.Points text span (charRange text.toList e) part) ∧
      (e.span? = none → (charRange text.toList e).1 ≤ (charRange text.toList e).2 ∧
        (charRange text.toList e).2 ≤ text.toList.length) := by
  refine ⟨fun span hspan => ?_, charRange_of_no_span _⟩
  rcases blames_of_compile h with hblames | ⟨reason, rfl⟩
  · obtain ⟨part, hne, hmarks, hnamed⟩ := hblames.marks hspan
    obtain ⟨before, after, htext, hrange⟩ := hmarks.charRange hspan
    have hlength := List.length_pos_iff.2 hne
    refine ⟨part, hmarks.shows, hnamed, ?_, ?_, ?_⟩
    · rw [hrange]
      simp only
      omega
    · rw [hrange, htext]
      simp only [List.length_append]
      omega
    · rw [hrange, htext]
      simp
  · simp [Error.span?] at hspan

/-- A symbol that is not defined, behind characters of more than one byte. -/
theorem Compiler.points_of_compile_undefined : ∃ e : Error,
    (compile (.ofString "class A { /* über */ function int f() { return größe; } }")
        ({} : Collector)).1 = .error e ∧
      e = .undefinedSymbol "größe" ⟨48, 55⟩ ∧
      e.Points "class A { /* über */ function int f() { return größe; } }" ⟨48, 55⟩ (47, 52)
        "größe".toList := by
  have h : (compile (.ofString "class A { /* über */ function int f() { return größe; } }")
      ({} : Collector)).1 = .error (.undefinedSymbol "größe" ⟨48, 55⟩) := by decide +kernel
  refine ⟨_, h, rfl, ?_⟩
  obtain ⟨part, hpoints⟩ := (points_of_compile h).1 _ rfl
  have hpart : part = "größe".toList := by
    rw [hpoints.named "größe" rfl, String.toList_ofList]
  have hrange : charRange "class A { /* über */ function int f() { return größe; } }".toList
      (.undefinedSymbol "größe" ⟨48, 55⟩) = (47, 52) := by decide +kernel
  rwa [hrange, hpart] at hpoints

end Jack

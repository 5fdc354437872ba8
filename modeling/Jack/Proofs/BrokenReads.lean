import Jack.Proofs.CorrectPrefix
import Jack.Proofs.Trace

/-!
# Readers that break down

A reader that breaks down delivers the first lines of its text, if not all (`breakingAfter_cases`).
So its tokens are the first tokens of the text, and where there are fewer the failure of the reader
stands behind them (`TokenStream.Breaks`). A step that does not run into the failure would do the
same with more tokens to come (`reaches_step`); so what is compiled before is the beginning of what
is compiled from the whole text, and is all of it unless the failure is what ends the compilation
(`compile_breaking`).
-/

namespace Jack

/-! ## Reads -/

/-- All lines are read, or the failure comes behind some of them. -/
theorem Source.breakingAfter_cases (reason : String) (room : Nat) (lines : List (List Char)) :
    breakingAfter reason room lines = ofLines lines ∨
      ∃ delivered lost, lines = delivered ++ lost ∧
        breakingAfter reason room lines = ofLines delivered ++ [.error reason] := by
  induction lines generalizing room with
  | nil =>
    simp only [breakingAfter]
    split
    · exact .inr ⟨[], [], rfl, rfl⟩
    · exact .inl rfl
  | cons line lines ih =>
    simp only [breakingAfter]
    generalize (Text.byteSize line + if line.getLast? = some '\n' then 0 else 1) = needed
    by_cases hroom : needed ≤ room
    · rw [if_pos hroom]
      rcases ih (room - Text.byteSize line) with h | ⟨delivered, lost, rfl, h⟩ <;> rw [h]
      · exact .inl rfl
      · exact .inr ⟨line :: delivered, lost, rfl, rfl⟩
    · rw [if_neg hroom]
      exact .inr ⟨[], line :: lines, rfl, rfl⟩

namespace Scanner

/-- The scanner with more reads to come. -/
def before (s : Scanner) (later : Source) : Scanner := { s with pending := s.pending ++ later }

theorem lexeme_before (s : Scanner) (later : Source) :
    (s.before later).lexeme = (s.lexeme.1, s.lexeme.2.before later) := by
  simp only [lexeme, before]
  split
  · rfl
  · split <;> rfl

/-- A scanner that does not read on to the failure answers the same, whatever is still to come. -/
theorem next_before (s : Scanner) (reason : String) :
    (∃ s', (s.before [.error reason]).next = (.error (.read reason), s')) ∨
      ∀ later, (s.before later).next = (s.next.1, s.next.2.before later) := by
  fun_induction next s with
  | case1 s s' hr hp =>
    have hrest : (s.before [.error reason]).skipBlanks.rest = [] := List.isEmpty_iff.1 hr
    have hpending : (s.before [.error reason]).pending = [.error reason] := by simp [before, hp]
    exact .inl ⟨_, next_of_failure hrest hpending⟩
  | case2 s s' hr reason' pending hp =>
    refine .inr fun later => ?_
    have hrest : (s.before later).skipBlanks.rest = [] := List.isEmpty_iff.1 hr
    exact next_of_failure hrest (by simp [before, hp])
  | case3 s s' hr line pending hp ih =>
    have hnext : ∀ later, (s.before later).next = ((s'.enterLine line pending).before later).next :=
      fun later => by
        have hrest : (s.before later).skipBlanks.rest = [] := List.isEmpty_iff.1 hr
        have hpending : (s.before later).pending = .ok line :: (pending ++ later) := by
          simp [before, hp]
        exact next_of_line hrest hpending
    simpa only [hnext] using ih
  | case4 s s' hr result after hl =>
    refine .inr fun later => ?_
    have hrest : (s.before later).skipBlanks.rest ≠ [] := mt List.isEmpty_iff.2 hr
    have hlexeme := lexeme_before s' later
    rw [hl] at hlexeme
    rw [next_of_lexeme hrest, show (s.before later).skipBlanks = s'.before later from rfl, hlexeme]

end Scanner

/-! ## Tokens -/

/-- The tokens are those of the whole, or the first ones, and then the failure. -/
def TokenStream.Breaks (e : ScanError) (broken whole : TokenStream) : Prop :=
  broken = whole ∨ broken.stop = some e ∧ ∃ more, whole.tokens = broken.tokens ++ more

open TokenStream

theorem Scanner.breaks_tokens (s : Scanner) (reason : String) (later : Source) :
    Breaks (.read reason) (s.before [.error reason]).tokens (s.before later).tokens := by
  fun_induction tokens s with
  | case1 s t s' hn rest ih =>
    rcases s.next_before reason with ⟨s₁, h⟩ | h
    · rw [tokens_eq (s.before [_]), h]
      exact .inr ⟨rfl, _, rfl⟩
    · simp only [hn] at h
      rw [tokens_eq (s.before [_]), tokens_eq (s.before later), h, h]
      rcases ih with heq | ⟨hstop, more, hmore⟩
      · exact .inl (by simp only [heq])
      · exact .inr ⟨hstop, more, by simp only [hmore, List.cons_append]⟩
  | case2 s s' hn | case3 s e s' hn =>
    rcases s.next_before reason with ⟨s₁, h⟩ | h
    · rw [tokens_eq (s.before [_]), h]
      exact .inr ⟨rfl, _, rfl⟩
    · simp only [hn] at h
      rw [tokens_eq (s.before [_]), tokens_eq (s.before later), h, h]
      exact .inl rfl

theorem TokenStream.breaks_ofStringBreaking (reason : String) (bytes : Nat) (text : String) :
    Breaks (.read reason) (ofSource (.ofStringBreaking reason bytes text))
      (ofSource (.ofString text)) := by
  unfold Source.ofStringBreaking Source.ofString Source.ofChars
  rcases Source.breakingAfter_cases reason bytes (Text.linesEnding (· = '\n') text.toList) with
    h | ⟨delivered, lost, hlines, h⟩
  · rw [h]
    exact .inl rfl
  · rw [h, hlines, Source.ofLines, Source.ofLines, List.map_append]
    exact (Scanner.ofSource (.ofLines delivered)).breaks_tokens reason (.ofLines lost)

/-! ## Steps -/

namespace Compiler

open State Goal

section Reaches

variable {α β γ δ : Type} {e : ScanError}

/-- With more tokens there is the same result, unless the tokens run out. -/
def Reaches (e : ScanError) (f : α → β) (broken : Except Error α) (whole : Except Error β) : Prop :=
  broken = .error (.scan e) ∨ whole = broken.map f

theorem Reaches.same (x : Except Error α) : Reaches e id x x := by
  cases x <;> exact .inr rfl

theorem Reaches.bind {f : α → β} {x : Except Error α} {y : Except Error β} {g : γ → δ}
    {k : α → Except Error γ} {l : β → Except Error δ} (h : Reaches e f x y)
    (hk : ∀ a, Reaches e g (k a) (l (f a))) : Reaches e g (x >>= k) (y >>= l) := by
  rcases h with rfl | rfl
  · exact .inl rfl
  · cases x with
    | error e' => exact .inr rfl
    | ok a => exact hk a

end Reaches

/-- The state with more tokens behind those at hand. -/
def State.upTo (more : List Token) (stop : Option ScanError) (s : State) : State :=
  { s with input := ⟨s.input.tokens ++ more, stop⟩ }

/-- Some tokens are at hand, and then comes the failure. -/
structure State.Broken (e : ScanError) (s : State) : Prop where
  tokens : s.input.tokens ≠ []
  stop : s.input.stop = some e

section Steps

variable {e : ScanError} {s : State} {more : List Token} {stop : Option ScanError} {α : Type}

theorem State.Broken.current? (h : s.Broken e) : (s.upTo more stop).current? = s.current? :=
  List.head?_append_of_ne_nil _ h.tokens

theorem State.Broken.at? (h : s.Broken e) (kind : Token.Kind) :
    (s.upTo more stop).at? kind = s.at? kind := by
  unfold State.at?
  rw [h.current?]

theorem reaches_drop (h : s.Broken e) :
    Reaches e (upTo more stop) s.drop (s.upTo more stop).drop := by
  obtain ⟨⟨tokens, stop'⟩, env⟩ := s
  obtain ⟨htokens, rfl⟩ := h
  match tokens, htokens with
  | [t], _ => exact .inl rfl
  | t :: t' :: rest, _ => exact .inr rfl

theorem reaches_accept? (h : s.Broken e) (cls : Token.Kind → Option α) :
    Reaches e (Option.map (Prod.map id (upTo more stop))) (s.accept? cls)
      ((s.upTo more stop).accept? cls) := by
  unfold accept?
  rw [h.current?]
  cases s.current?.bind (cls ·.kind) with
  | none => exact .inr rfl
  | some a => exact (reaches_drop h).bind fun _ => .inr rfl

theorem reaches_require (h : s.Broken e) (expected : String) (cls : Token.Kind → Option α) :
    Reaches e (Prod.map id (Prod.map id (upTo more stop))) (s.require expected cls)
      ((s.upTo more stop).require expected cls) := by
  unfold require
  rw [h.current?]
  cases s.current? with
  | none => exact .inr rfl
  | some t =>
    simp only
    cases cls t.kind with
    | none => exact .inr rfl
    | some a => exact (reaches_drop h).bind fun _ => .inr rfl

theorem reaches_requireSymbol (h : s.Broken e) (c : Char) :
    Reaches e (upTo more stop) (s.requireSymbol c) ((s.upTo more stop).requireSymbol c) :=
  (reaches_require h _ _).bind fun _ => .inr rfl

theorem reaches_requireKeyword (h : s.Broken e) (k : Keyword) :
    Reaches e (upTo more stop) (s.requireKeyword k) ((s.upTo more stop).requireKeyword k) :=
  (reaches_require h _ _).bind fun _ => .inr rfl

theorem reaches_requireType (h : s.Broken e) :
    Reaches e (Prod.map id (upTo more stop)) s.requireType (s.upTo more stop).requireType :=
  (reaches_require h _ _).bind fun _ => .inr rfl

theorem reaches_declare (s : State) (name typeName : String) (kind : Symbol.Kind) (span : Span) :
    Reaches e (upTo more stop) (s.declare name typeName kind span)
      ((s.upTo more stop).declare name typeName kind span) := by
  refine .inr ?_
  unfold declare
  split <;> split <;> first | rfl | contradiction

/-- What a step leaves, with more tokens. -/
abbrev State.UpTo (more : List Token) (stop : Option ScanError) :
    List Goal × State → List Goal × State := Prod.map id (upTo more stop)

theorem reaches_stepTerm (s : State) (t : Token) :
    Reaches e (UpTo more stop) (stepTerm s t) (stepTerm (s.upTo more stop) t) := by
  refine .inr ?_
  unfold stepTerm
  split <;> try rfl
  split <;> try rfl
  split <;> try rfl
  split <;> rfl

/-- A step that does not run into the failure is the same with more tokens to come. -/
theorem reaches_step (h : s.Broken e) (g : Goal) :
    Reaches e (UpTo more stop) (step s g) (step (s.upTo more stop) g) := by
  cases g <;> simp only [step, h.at?, h.current?]
  case emit | note | prologue | parameters | returnValue | expression => exact .inr rfl
  case symbol => exact (reaches_requireSymbol h _).bind fun _ => .inr rfl
  case arguments => exact (reaches_requireSymbol h _).bind fun _ => .inr rfl
  case classDeclaration => exact (reaches_requireKeyword h _).bind fun _ => .inr rfl
  case className | subroutineName | doCall =>
    exact (reaches_require h _ _).bind fun _ => .inr rfl
  case parameter | variableType => exact (reaches_requireType h).bind fun _ => .inr rfl
  case parameterName | variableName =>
    exact (reaches_require h _ _).bind fun _ => (reaches_declare ..).bind fun _ => .inr rfl
  case classVariables | moreParameters | localVariables | moreVariables | elseBranch
      | operators | moreArguments | subroutines =>
    refine (reaches_accept? h _).bind ?_
    rintro (_ | ⟨_, s₁⟩) <;> exact .inr rfl
  case returnType =>
    refine (reaches_accept? h _).bind ?_
    rintro (_ | ⟨_, s₁⟩)
    · exact (reaches_requireType h).bind fun _ => .inr rfl
    · exact .inr rfl
  case statements =>
    refine (reaches_accept? h _).bind ?_
    rintro (_ | ⟨kind, s₁⟩)
    · exact .inr rfl
    · cases kind <;> exact .inr rfl
  case letTarget =>
    exact (reaches_require h _ _).bind fun _ => (Reaches.same _).bind fun _ => .inr rfl
  case assignment =>
    split <;> exact .inr rfl
  case argumentList =>
    split <;> exact .inr rfl
  case term =>
    split
    · exact .inr rfl
    · exact (reaches_drop h).bind fun _ => reaches_stepTerm _ _
  case named =>
    split
    · exact (Reaches.same _).bind fun _ => .inr rfl
    · split
      · exact .inr rfl
      · exact (Reaches.same _).bind fun _ => .inr rfl
  case call =>
    split
    · exact .inr rfl
    · exact (reaches_require h _ _).bind fun _ => .inr rfl
  case qualifiedCall =>
    exact (reaches_require h _ _).bind fun _ => (Reaches.same _).bind fun _ => .inr rfl
  case endOfClass =>
    split <;> exact .inr rfl

theorem State.Broken.step (h : s.Broken e) {g : Goal} {goals : List Goal} {s' : State}
    (hs : step s g = .ok (goals, s')) : s'.Broken e := by
  obtain ⟨ts, hled⟩ := led_of_step [] hs
  have hstop : s'.input.stop = some e := hled.stop.trans h.stop
  refine ⟨fun hnil => ?_, hstop⟩
  have hnone := hled.ended (fun hs => absurd hs h.tokens) hnil
  simp [hstop] at hnone

variable (more stop) in
/-- What is written in front of the failure is the beginning of what is written with more tokens,
and is all of it where the failure is not the end. -/
theorem reaches_trace (agenda : List Goal) (h : s.Broken e) :
    (trace agenda s).1 <+: (trace agenda (s.upTo more stop)).1 ∧
      ((trace agenda s).2 = .error (.scan e) ∨
        trace agenda (s.upTo more stop) =
          ((trace agenda s).1, (trace agenda s).2.map (upTo more stop))) := by
  fun_induction trace agenda s with
  | case1 s =>
    rw [trace]
    exact ⟨List.prefix_rfl, .inr rfl⟩
  | case2 code agenda s later result htrace ih =>
    rw [trace_emit]
    simp only [htrace] at ih
    obtain ⟨hbegins, hends⟩ := ih h
    refine ⟨(List.prefix_append_right_inj code).2 hbegins, hends.imp id fun hsame => ?_⟩
    rw [hsame]
  | case3 g agenda s hg goals s' hstep ih =>
    have hmore : Compiler.step (s.upTo more stop) g = .ok (goals, s'.upTo more stop) := by
      rcases reaches_step h g with hfail | hsame
      · simp [hstep] at hfail
      · rw [hsame, hstep]
        rfl
    rw [trace_step hg hmore]
    exact ih (h.step hstep)
  | case4 g agenda s hg error hstep =>
    refine ⟨List.nil_prefix, ?_⟩
    rcases reaches_step h g with hfail | hsame
    · obtain rfl : error = .scan e := Except.error.inj (hstep.symm.trans hfail)
      exact .inl rfl
    · rw [hstep] at hsame
      exact .inr (trace_step_error hg hsame)

end Steps

/-! ## Compilations -/

theorem breaks_compileTokens {e : ScanError} {broken whole : TokenStream}
    (h : broken.Breaks e whole) :
    (compileTokens broken ({} : Collector)).2.items.toList <+:
        (compileTokens whole ({} : Collector)).2.items.toList ∧
      ((compileTokens broken ({} : Collector)).1 = .error (.scan e) ∨
        compileTokens broken ({} : Collector) = compileTokens whole ({} : Collector)) := by
  rcases h with rfl | ⟨hstop, more, hmore⟩
  · exact ⟨List.prefix_rfl, .inr rfl⟩
  by_cases hnil : broken.tokens = []
  · obtain rfl : broken = ⟨[], some e⟩ := by rw [← hnil, ← hstop]
    exact ⟨List.nil_prefix, .inl rfl⟩
  · have hwhole : whole.tokens ≠ [] := by simp [hmore, hnil]
    have hstart : State.upTo more whole.stop { input := broken } = { input := whole } := by
      rw [State.upTo, ← hmore]
    obtain ⟨hbegins, hends⟩ := reaches_trace more whole.stop [.classDeclaration]
      (s := { input := broken }) ⟨hnil, hstop⟩
    rw [hstart] at hbegins hends
    rw [compileTokens_eq_trace fun h => hnil h.1, compileTokens_eq_trace fun h => hwhole h.1]
    refine ⟨hbegins, hends.imp (fun hfail => by rw [hfail]; rfl) fun hsame => ?_⟩
    rw [hsame]
    cases (trace [.classDeclaration] { input := broken }).2 <;> rfl

/-- From a reader that breaks down after some bytes, the beginning is compiled of what is compiled
from the whole text; and either the failure is the result, or the compilation had ended before and
nothing is different. -/
theorem compile_breaking (reason : String) (bytes : Nat) (text : String) :
    let broken := compile (.ofStringBreaking reason bytes text) ({} : Collector)
    let whole := compile (.ofString text) ({} : Collector)
    broken.2.items.toList <+: whole.2.items.toList ∧
      (broken.1 = .error (.scan (.read reason)) ∨ broken = whole) :=
  breaks_compileTokens (TokenStream.breaks_ofStringBreaking reason bytes text)

end Compiler

end Jack

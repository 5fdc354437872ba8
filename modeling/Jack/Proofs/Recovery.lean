import Jack.Proofs.Tiling
import Jack.Reader

/-!
# Reading on after errors

A lexeme that is no token costs a reader the call that reports it, and nothing else: the token held
and the lexemes to come are what they were. `WholeText.lexemes` decodes all the lexemes of a text,
the bad ones too, up to its end or to a string that is left open. A scanner that stands before the
text gives just these, and then the same answer for ever (`Stands.gives`); a reader returns them
one call later (`Reader.reads_on_after_errors`).
-/

namespace Jack

open Text Comment WholeText

/-! ## All the lexemes of a text -/

/-- The token that a lexeme is where it begins at the given byte, or what is wrong with it. -/
def Lexeme.read (start : Nat) (cs : List Char) : Except ScanError Token :=
  match decode cs with
  | .ok kind => .ok ⟨kind, String.ofList cs, .ofPart start cs⟩
  | .error flaw => .error (.ofFlaw (String.ofList cs) (.ofPart start cs) flaw)

/-- What the lexemes of a text are, and the span of the string left open behind them, if any. -/
structure Lexemes where
  decoded : List (Except ScanError Token)
  openString? : Option Span

/-- The errors among results. -/
def errorsIn {α : Type} (results : List (Except ScanError α)) : List ScanError :=
  results.filterMap fun
    | .ok _ => none
    | .error e => some e

namespace Lexemes

def valid (lexemes : Lexemes) : List Token := lexemes.decoded.filterMap Except.toOption

def bad (lexemes : Lexemes) : List ScanError := errorsIn lexemes.decoded

end Lexemes

namespace WholeText

/-- Where the first lexeme stands in a text that begins at the given byte. -/
def firstByte (start : Nat) (text : List Char) : Nat :=
  start + (byteSize text - byteSize (skipLayout text))

/-- A string that is left open goes to the end of its line, without the blanks there. -/
def openSpan? (start : Nat) : List Char → Option Span
  | [] => none
  | c :: rest => some (.ofPart start (trimEnd (c :: rest.takeWhile (· ≠ '\n'))))

/-- The lexemes of a text that begins at the given byte. -/
def lexemes (start : Nat) (text : List Char) : Lexemes :=
  match _h : cut? (skipLayout text) with
  | none => ⟨[], openSpan? (firstByte start text) (skipLayout text)⟩
  | some (cs, after) =>
    let first := firstByte start text
    let later := lexemes (first + byteSize cs) after
    { later with decoded := Lexeme.read first cs :: later.decoded }
termination_by text.length
decreasing_by
  have := length_skipLayout_le text
  have := length_lt_of_cut? _h
  omega

theorem firstByte_add_byteSize (start : Nat) (text : List Char) :
    firstByte start text + byteSize (skipLayout text) = start + byteSize text := by
  obtain ⟨gap, hgap, -⟩ := skips_skipLayout text
  have hsize := congrArg byteSize hgap
  rw [byteSize_append] at hsize
  rw [firstByte]
  omega

end WholeText

def Lexemes.ofString (text : String) : Lexemes := lexemes 0 text.toList

/-! ## What a scanner gives -/

/-- What a scanner answers where there are no more lexemes. -/
def Scanner.ending : Option Span → Except ScanError (Option Token)
  | none => .ok none
  | some span => .error (.openString span)

/-- The scanner gives no more lexemes: its answer is the last one, now and ever after. -/
def Scanner.Stops (s : Scanner) (openString? : Option Span) : Prop :=
  ∃ s₁, s.next = (ending openString?, s₁) ∧ s₁.next = (ending openString?, s₁)

/-- What `next` gives when it is called again and again, up to where it stops. -/
inductive Scanner.Gives : Scanner → Lexemes → Prop
  | stopped {s : Scanner} {openString? : Option Span} (h : s.Stops openString?) :
    Gives s ⟨[], openString?⟩
  | lexeme {s s₁ : Scanner} {result : Except ScanError Token} {later : Lexemes}
    (h : s.next = (result.map some, s₁)) (hlater : Gives s₁ later) :
    Gives s { later with decoded := result :: later.decoded }

namespace Scanner

variable {s : Scanner}

theorem skipBlanks_eq_self (h : ∀ c ∈ s.rest.head?, isBlank c = false) : s.skipBlanks = s := by
  have hspan := span_append [] s.rest (by simp) h
  rw [List.nil_append] at hspan
  rw [skipBlanks, trimStart, hspan.1, hspan.2]
  rfl

theorem lexeme_of_cut {cs rest : List Char} (h : Lexeme.cut? s.rest = some (cs, rest)) :
    s.lexeme = (Lexeme.read s.offset cs, { s with rest, offset := s.offset + byteSize cs }) := by
  rw [lexeme, h, Lexeme.read]
  cases hdecode : Lexeme.decode cs <;> simp only [hdecode] <;> rfl

end Scanner

section Stands

variable {s : Scanner} {text line later lexeme after : List Char} {start : Nat}

theorem isBlank_head?_of_solid (h : Solid line) :
    (blank .code line).1 ≠ [] ∧ ∀ c ∈ (blank .code line).1.head?, isBlank c = false := by
  obtain ⟨c, line, rfl, hblank, hcomment⟩ := h
  rw [blank_code_cons hcomment]
  simpa using hblank

/-- The span of a string that is left open in its line. -/
theorem openSpan?_of_cut?_eq_none (hsolid : Solid line) (hmid : MidLine later line)
    (hcut : Lexeme.cut? (blank .code line).1 = none) :
    openSpan? start (line ++ later) =
      some (.ofPart start (trimEnd (blank .code line).1)) := by
  obtain ⟨body, after, -, hline, hafter, htext, htrim⟩ :=
    openString_of_cut?_eq_none hsolid hmid hcut
  have hbody : (body ++ after).takeWhile (· ≠ '\n') = body :=
    (span_append body after (fun c hc => by simpa using ne_of_mem_of_not_mem hc hline)
      (by simpa using hafter)).1
  rw [htext, htrim, List.cons_append, openSpan?, hbody]

/-- Without a lexeme in front of its text a scanner is at its end, or at a string that is left
open; it stays there. -/
theorem Stands.stops (h : Stands s text) (hextent : s.extent = start + byteSize text)
    (hcut : WholeText.cut? (skipLayout text) = none) :
    s.Stops (openSpan? (firstByte start text) (skipLayout text)) := by
  obtain ⟨hnil, s₁, hrest, hpending, hnext⟩ |
    ⟨s₁, line, later, hsolid, hmid, hpending, hblank, htext, hextent₁, hnext⟩ := h.comes
  · have hskip : s₁.skipBlanks = s₁ := Scanner.skipBlanks_eq_self (by simp [hrest])
    have hstays := Scanner.next_of_end (by rw [hskip, hrest]) hpending
    rw [hskip] at hstays
    rw [hnil]
    exact ⟨s₁, hnext, hstays⟩
  · have hrest : s₁.rest = (blank .code line).1 := (Prod.mk.inj hblank).1
    have hoffset : s₁.offset = firstByte start text := by
      have hplace := offset_of_blank hpending hrest
      have hfirst := firstByte_add_byteSize start text
      rw [htext] at hfirst
      omega
    have hopen : Lexeme.cut? s₁.rest = none := by
      rw [hrest]
      rcases sameCut_blank hsolid hmid with ⟨-, hopen⟩ | ⟨_, _, -, hsome, -⟩
      · exact hopen
      · rw [htext, hsome] at hcut
        exact absurd hcut (by simp)
    have hlexeme : s₁.lexeme =
        (.error (.openString (.ofPart (firstByte start text) (trimEnd s₁.rest))), s₁) := by
      rw [Scanner.lexeme, hopen, hoffset]
      rfl
    obtain ⟨hne, hhead⟩ := isBlank_head?_of_solid hsolid
    rw [← hrest] at hne hhead
    have hskip := Scanner.skipBlanks_eq_self hhead
    have hstays := Scanner.next_of_lexeme (s := s₁) (by rwa [hskip])
    rw [hskip] at hstays
    rw [hlexeme] at hnext hstays
    rw [htext, openSpan?_of_cut?_eq_none hsolid hmid (hrest ▸ hopen), ← hrest]
    exact ⟨s₁, hnext, hstays⟩

/-- The lexeme in front of its text is what a scanner gives, good or bad, and the scanner goes on
behind it. -/
theorem Stands.next_of_cut?_eq_some (h : Stands s text) (hextent : s.extent = start + byteSize text)
    (hcut : WholeText.cut? (skipLayout text) = some (lexeme, after)) :
    ∃ s₁, s.next = ((Lexeme.read (firstByte start text) lexeme).map some, s₁) ∧ Stands s₁ after ∧
      s₁.extent = firstByte start text + byteSize lexeme + byteSize after := by
  obtain ⟨hnil, -⟩ | ⟨s₁, line, later, hsolid, hmid, hpending, hblank, htext, hextent₁, hnext⟩ :=
    h.comes
  · simp [hnil, WholeText.cut?] at hcut
  · obtain ⟨hrest, hcomment⟩ := Prod.mk.inj hblank
    have hplace := offset_of_blank hpending hrest
    have hfirst := firstByte_add_byteSize start text
    rw [WholeText.cut?_eq_some hcut, byteSize_append] at hfirst
    rw [← htext, WholeText.cut?_eq_some hcut, byteSize_append] at hplace
    have hoffset : s₁.offset = firstByte start text := by omega
    rcases sameCut_blank hsolid hmid with ⟨hnone, -⟩ | ⟨cs, rest, hline, hcut', hcs, hopen⟩
    · rw [htext, hnone] at hcut
      exact absurd hcut (by simp)
    · obtain ⟨rfl, rfl⟩ := Prod.mk.inj (Option.some.inj (hcut'.symm.trans (htext ▸ hcut)))
      rw [Scanner.lexeme_of_cut (hrest ▸ hcs), hoffset] at hnext
      refine ⟨_, hnext, ⟨.code, rest, later, by simp, hline, hpending, ?_, rfl⟩, ?_⟩
      · simp only [hcomment, hopen]
      · simp only [Scanner.extent, hpending, Scanner.bytesOf_ofChars, byteSize_blank,
          byteSize_append, Nat.add_assoc]

/-- A scanner gives the lexemes of the text that it stands before. -/
theorem Stands.gives (h : Stands s text) (hextent : s.extent = start + byteSize text) :
    s.Gives (lexemes start text) := by
  fun_induction lexemes start text generalizing s with
  | case1 start text hcut => exact .stopped (h.stops hextent hcut)
  | case2 start text cs after hcut first later =>
    rename_i ih
    obtain ⟨s₁, hnext, hstands, hextent₁⟩ := h.next_of_cut?_eq_some hextent hcut
    exact .lexeme hnext (ih hstands hextent₁)

end Stands

theorem Scanner.gives_ofString (text : String) :
    (ofSource (.ofString text)).Gives (.ofString text) := by
  refine (stands_ofSource text.toList).gives ?_
  rw [Scanner.extent, Scanner.ofSource, Scanner.bytesOf_ofChars]
  rfl

/-! ## What a reader answers -/

namespace Reader

/-- The reader after so many calls of `discard`, whatever they answered. -/
def after (r : Reader) : Nat → Reader
  | 0 => r
  | n + 1 => r.discard.2.after n

/-- What the next call answers after so many. -/
def answer (r : Reader) (n : Nat) : Except ScanError (Option Token) := (r.after n).discard.1

/-- What so many calls answer. -/
def answers (r : Reader) : Nat → List (Except ScanError (Option Token))
  | 0 => []
  | n + 1 => r.discard.1 :: r.discard.2.answers n

/-- The tokens among answers. -/
def tokensIn (answers : List (Except ScanError (Option Token))) : List Token :=
  answers.filterMap fun
    | .ok token? => token?
    | .error _ => none

/-- So many calls return the tokens and fail with the errors, and none of them tells the end. -/
structure Passes (r : Reader) (n : Nat) (tokens : List Token) (errors : List ScanError) : Prop where
  going : ∀ answer ∈ r.answers n, answer ≠ .ok none
  tokens_eq : tokensIn (r.answers n) = tokens
  errors_eq : errorsIn (r.answers n) = errors

/-- Read to its end: so many calls return the tokens and fail with the errors, and the next one
answers no token. -/
structure ReadsOut (r : Reader) (n : Nat) (tokens : List Token) (errors : List ScanError) : Prop
    extends r.Passes n tokens errors where
  done : r.answer n = .ok none

/-- Read to a string that is left open: so many calls return the tokens and fail with the errors,
and whatever call comes behind them tells the string, with the same token held. -/
structure Sticks (r : Reader) (n : Nat) (tokens : List Token) (errors : List ScanError)
    (held : Token) (span : Span) : Prop extends r.Passes n tokens errors where
  stuck : ∀ m ≥ n, r.answer m = .error (.openString span) ∧ (r.after m).current = some held

variable {r r' : Reader} {n : Nat} {t : Token} {e : ScanError} {tokens : List Token}
  {errors : List ScanError} {span : Span} {s : Scanner} {found : Lexemes}

theorem after_add (r : Reader) (n m : Nat) : r.after (n + m) = (r.after n).after m := by
  induction n generalizing r with
  | zero => rw [Nat.zero_add, after]
  | succ n ih => rw [Nat.succ_add, after, ih, after]

theorem after_succ (r : Reader) (n : Nat) : r.after (n + 1) = (r.after n).discard.2 :=
  r.after_add n 1

theorem answers_succ (r : Reader) (n : Nat) : r.answers (n + 1) = r.answers n ++ [r.answer n] := by
  induction n generalizing r with
  | zero => rfl
  | succ n ih => rw [answers, ih, answers]; rfl

/-- A failing call leaves the token held as it was. -/
theorem current_after_succ_of_error (h : r.answer n = .error e) :
    (r.after (n + 1)).current = (r.after n).current := by
  rw [after_succ]
  exact current_discard_of_error (Prod.ext h rfl)

theorem Passes.zero : r.Passes 0 [] [] := ⟨by simp [answers], rfl, rfl⟩

theorem Passes.cons_error (h : r.discard = (.error e, r')) (hpasses : r'.Passes n tokens errors) :
    r.Passes (n + 1) tokens (e :: errors) := by
  obtain ⟨hgoing, rfl, rfl⟩ := hpasses
  refine ⟨?_, ?_, ?_⟩ <;> rw [answers, h]
  · simpa using hgoing
  · rfl
  · rfl

theorem Passes.cons_token (h : r.discard = (.ok (some t), r'))
    (hpasses : r'.Passes n tokens errors) : r.Passes (n + 1) (t :: tokens) errors := by
  obtain ⟨hgoing, rfl, rfl⟩ := hpasses
  refine ⟨?_, ?_, ?_⟩ <;> rw [answers, h]
  · simpa using hgoing
  · rfl
  · rfl

theorem Passes.concat_token (hpasses : r.Passes n tokens errors) (h : r.answer n = .ok (some t)) :
    r.Passes (n + 1) (tokens ++ [t]) errors := by
  obtain ⟨hgoing, rfl, rfl⟩ := hpasses
  refine ⟨?_, ?_, ?_⟩ <;> rw [answers_succ, h]
  · rintro answer hanswer
    rcases List.mem_append.1 hanswer with hanswer | hanswer
    · exact hgoing answer hanswer
    · simp [List.mem_singleton.1 hanswer]
  · rw [tokensIn, List.filterMap_append]
    rfl
  · rw [errorsIn, List.filterMap_append]
    exact List.append_nil _

/-- A reader returns the token that it holds and those that its scanner gives, but for the last of
them, which it still holds where the scanner stops. -/
theorem exists_passes (h : s.Gives found) (t : Token) :
    ∃ n tokens held, t :: found.valid = tokens ++ [held] ∧
      Passes ⟨s, some t⟩ n tokens found.bad ∧
      ∃ s₁, after ⟨s, some t⟩ n = ⟨s₁, some held⟩ ∧ s₁.Stops found.openString? := by
  induction h generalizing t with
  | @stopped s openString? h => exact ⟨0, [], t, rfl, .zero, s, rfl, h⟩
  | @lexeme s s' result later h hlater ih =>
    cases result with
    | error e =>
      have hdiscard : discard ⟨s, some t⟩ = (.error e, ⟨s', some t⟩) := by rw [discard, h]; rfl
      obtain ⟨n, tokens, held, hsplit, hpasses, hstops⟩ := ih t
      refine ⟨n + 1, tokens, held, hsplit, hpasses.cons_error hdiscard, ?_⟩
      rwa [after, hdiscard]
    | ok t' =>
      have hdiscard : discard ⟨s, some t⟩ = (.ok (some t), ⟨s', some t'⟩) := by
        rw [discard, h]; rfl
      obtain ⟨n, tokens, held, hsplit, hpasses, hstops⟩ := ih t'
      refine ⟨n + 1, t :: tokens, held, congrArg (t :: ·) hsplit, hpasses.cons_token hdiscard, ?_⟩
      rwa [after, hdiscard]

/-- At the end of the source the token held is the last one returned. -/
theorem Passes.readsOut (hpasses : r.Passes n tokens errors) (hafter : r.after n = ⟨s, some t⟩)
    (hstops : s.Stops none) : r.ReadsOut (n + 1) (tokens ++ [t]) errors := by
  obtain ⟨s₁, hnext, hstays⟩ := hstops
  have hdiscard : (r.after n).discard = (.ok (some t), ⟨s₁, none⟩) := by
    rw [hafter, discard, hnext]; rfl
  refine ⟨hpasses.concat_token (by rw [answer, hdiscard]), ?_⟩
  rw [answer, after_succ, hdiscard, discard, hstays]
  rfl

/-- A reader never gets past a string that is left open. -/
theorem stuck_of_stops (hstops : s.Stops (some span)) (n : Nat) :
    answer ⟨s, some t⟩ n = .error (.openString span) ∧
      (after ⟨s, some t⟩ n).current = some t := by
  obtain ⟨s₁, hnext, hstays⟩ := hstops
  induction n generalizing s with
  | zero => exact ⟨by rw [answer, after, discard, hnext]; rfl, rfl⟩
  | succ n ih =>
    have hdiscard : discard ⟨s, some t⟩ = (.error (.openString span), ⟨s₁, some t⟩) := by
      rw [discard, hnext]; rfl
    rw [answer, after, hdiscard]
    exact ih hstays

theorem Passes.sticks (hpasses : r.Passes n tokens errors) (hafter : r.after n = ⟨s, some t⟩)
    (hstops : s.Stops (some span)) : r.Sticks n tokens errors t span := by
  refine ⟨hpasses, fun m hm => ?_⟩
  obtain ⟨k, rfl⟩ := Nat.exists_eq_add_of_le hm
  rw [answer, after_add, hafter]
  exact stuck_of_stops hstops k

theorem gives_of_open? {text : String} (h : open? (.ofString text) = .ok r) :
    r.current = none ∧ r.scanner.Stops none ∧ Lexemes.ofString text = ⟨[], none⟩ ∨
      ∃ t later, r.current = some t ∧ r.scanner.Gives later ∧
        Lexemes.ofString text = { later with decoded := .ok t :: later.decoded } := by
  have hgives := Scanner.gives_ofString text
  unfold open? at h
  generalize Lexemes.ofString text = found at hgives
  cases hgives with
  | @stopped _ openString? hstops =>
    obtain ⟨s₁, hnext, hstays⟩ := hstops
    rw [hnext] at h
    cases openString? with
    | none =>
      obtain rfl := Except.ok.inj h
      exact .inl ⟨rfl, ⟨s₁, hstays, hstays⟩, rfl⟩
    | some span => cases h
  | @lexeme _ s₁ result later hnext hlater =>
    rw [hnext] at h
    cases result with
    | error e => cases h
    | ok t =>
      obtain rfl := Except.ok.inj h
      exact .inr ⟨t, later, rfl, hlater, rfl⟩

/-- Reading on after errors loses no token and gives none twice. Up to the end of its source a
reader returns the valid lexemes and fails once for each bad one. A string that is left open is
told for ever, and the last lexeme in front of it stays held. -/
theorem reads_on_after_errors {text : String} (h : open? (.ofString text) = .ok r) :
    (∀ n e, r.answer n = .error e → (r.after (n + 1)).current = (r.after n).current) ∧
      ((Lexemes.ofString text).openString? = none →
        ∃ n, r.ReadsOut n (Lexemes.ofString text).valid (Lexemes.ofString text).bad) ∧
      ∀ span ∈ (Lexemes.ofString text).openString?, ∃ n tokens held,
        (Lexemes.ofString text).valid = tokens ++ [held] ∧
          r.Sticks n tokens (Lexemes.ofString text).bad held span := by
  refine ⟨fun _ _ => current_after_succ_of_error, ?_⟩
  obtain ⟨hcurrent, ⟨s₁, hnext, -⟩, hfound⟩ | ⟨t, later, hcurrent, hgives, hfound⟩ :=
    gives_of_open? h
  · rw [hfound]
    refine ⟨fun _ => ⟨0, .zero, ?_⟩, by simp⟩
    rw [answer, after, discard, hnext, hcurrent]
    rfl
  · obtain ⟨n, tokens, held, hsplit, hpasses, s₁, hafter, hstops⟩ := exists_passes hgives t
    rw [← hcurrent] at hpasses hafter
    rw [hfound]
    refine ⟨fun hclosed => ⟨n + 1, ?_⟩, fun span hopen => ⟨n, tokens, held, hsplit, ?_⟩⟩
    · have hreads := hpasses.readsOut hafter (hclosed ▸ hstops)
      rwa [← hsplit] at hreads
    · exact hpasses.sticks hafter (Option.mem_def.1 hopen ▸ hstops)

/-- Bad lexemes side by side, around a comment and the end of a line, and a string that is left open
behind the last of them. -/
def tangled : String := "class 9x 40000 Main \x7b\n 7a /* 8b */\n  x \"𝕏\" \"no end // y  \n z"

theorem reads_on_after_errors_tangled : ∃ r, open? (.ofString tangled) = .ok r ∧
    ∃ n tokens held, r.Sticks n tokens (Lexemes.ofString tangled).bad held ⟨46, 58⟩ ∧
      tokens.map (·.lexeme) = ["class", "Main", "\x7b"] ∧ held.lexeme = "x" ∧
      (Lexemes.ofString tangled).bad.map ScanError.lexeme? =
        [some "9x", some "40000", some "7a", some "\"𝕏\""] := by
  have hopens : (open? (.ofString tangled)).toOption.isSome := by decide +kernel
  have hopen : (Lexemes.ofString tangled).openString? = some ⟨46, 58⟩ := by decide +kernel
  have hvalid : (Lexemes.ofString tangled).valid.map (·.lexeme) =
      ["class", "Main", "\x7b"] ++ ["x"] := by decide +kernel
  have hbad : (Lexemes.ofString tangled).bad.map ScanError.lexeme? =
      [some "9x", some "40000", some "7a", some "\"𝕏\""] := by decide +kernel
  cases hr : open? (.ofString tangled) with
  | error e =>
    rw [hr] at hopens
    simp [Except.toOption] at hopens
  | ok r =>
    obtain ⟨n, tokens, held, hsplit, hsticks⟩ := (reads_on_after_errors hr).2.2 _ hopen
    rw [hsplit, List.map_append] at hvalid
    obtain ⟨htokens, hheld⟩ := List.append_inj' hvalid rfl
    exact ⟨r, rfl, n, tokens, held, hsticks, htokens, List.singleton_inj.1 hheld, hbad⟩

end Reader

end Jack

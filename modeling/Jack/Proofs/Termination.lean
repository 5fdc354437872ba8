import Jack.Proofs.BrokenReads
import Jack.Proofs.Tiling
import Mathlib.Logic.Relation

/-!
# Compilation ends

A scanner that comes to a lexeme moves on in the source (`Scanner.offset_lt_next`), so there are no
more tokens than bytes. A goal is a production, or one round of its loop, and leads to the goals
that its step leaves (`Leads`). Along such a chain the potential of the goal at hand goes down, so
where a production comes back, a token has been taken in between (`exists_taken_of_cycle`).

The compiler is given fuel, of which it needs one unit for each line that is entered, for each token
and for each goal. Some fuel for each byte of the source is enough, and the answer is then that of
`compile` (`compileWithin_eq`).
-/

namespace Jack

open Text Comment

/-! ## The scanner moves on -/

namespace Scanner

variable {s s' : Scanner} {t : Token}

/-- The lexeme that an answer is about, be it a token or not. -/
def lexemeOf? : Except ScanError (Option Token) → Option String
  | .ok t? => t?.map (·.lexeme)
  | .error e => e.lexeme?

theorem extent_lexeme (s : Scanner) : s.lexeme.2.extent = s.extent := by
  unfold lexeme
  split
  · rfl
  · rename_i cs rest hcut
    obtain ⟨-, hrest⟩ := Lexeme.cut?_eq_some hcut
    simp only
    split <;> simp only [extent, ← hrest, byteSize_append] <;> omega

/-- Whatever the scanner does, the bytes that it has passed and those ahead make up the source. -/
theorem extent_next (s : Scanner) : s.next.2.extent = s.extent := by
  fun_induction next s with
  | case1 s s' => exact s.extent_skipBlanks
  | case2 s s' hr reason pending hp =>
    rw [← s.extent_skipBlanks]
    simp only [extent, s', show s.skipBlanks.pending = s.pending from rfl, hp, bytesOf]
  | case3 s s' hr line pending hp ih =>
    rw [ih, extent_enterLine (List.isEmpty_iff.1 hr) hp, extent_skipBlanks]
  | case4 s s' hr result after hl =>
    have hextent := extent_lexeme s'
    rw [hl] at hextent
    exact hextent.trans s.extent_skipBlanks

theorem offset_lt_lexeme (h : (lexemeOf? (s.lexeme.1.map some)).isSome) :
    s.offset < s.lexeme.2.offset := by
  unfold lexeme at h ⊢
  split at h
  · simp [lexemeOf?, Except.map, ScanError.lexeme?] at h
  · rename_i cs rest hcut
    have hpos := byteSize_pos (Lexeme.cut?_eq_some hcut).1
    simp only
    split <;> exact Nat.lt_add_of_pos_right hpos

/-- A scanner that answers with a lexeme has moved on in the source. -/
theorem offset_lt_next (h : (lexemeOf? s.next.1).isSome) : s.offset < s.next.2.offset := by
  fun_induction next s with
  | case1 | case2 => simp [lexemeOf?, ScanError.lexeme?] at h
  | case3 s s' hr line pending hp ih =>
    exact Nat.lt_of_le_of_lt (Nat.le_add_right _ _) (ih h)
  | case4 s s' hr result after hl =>
    have hlexeme : (lexemeOf? (s'.lexeme.1.map some)).isSome := by rwa [hl]
    have hlt := offset_lt_lexeme hlexeme
    rw [hl] at hlt
    exact Nat.lt_of_le_of_lt (Nat.le_add_right _ _) hlt

/-- The bytes that the scanner has not passed yet. -/
def bytesAhead (s : Scanner) : Nat := byteSize s.rest + bytesOf s.pending

theorem bytesAhead_lt_of_next (h : s.next = (.ok (some t), s')) : s'.bytesAhead < s.bytesAhead := by
  have hlt := offset_lt_next (s := s) (by simp [h, lexemeOf?])
  have hextent := s.extent_next
  simp only [h, extent, bytesAhead] at hlt hextent ⊢
  omega

theorem length_tokens_le_bytesAhead (s : Scanner) : s.tokens.tokens.length ≤ s.bytesAhead := by
  fun_induction tokens s with
  | case1 s t s' hn later ih =>
    have ih : later.tokens.length ≤ s'.bytesAhead := ih
    have hlt := bytesAhead_lt_of_next hn
    simp only [List.length_cons]
    omega
  | case2 | case3 => exact Nat.zero_le _

theorem pending_next_suffix (s : Scanner) : s.next.2.pending <:+ s.pending := by
  fun_induction next s with
  | case1 => exact List.suffix_refl _
  | case2 s s' hr reason pending hp => exact hp ▸ List.suffix_cons _ _
  | case3 s s' hr line pending hp ih => exact ih.trans (hp ▸ List.suffix_cons _ _)
  | case4 s s' hr result after hl =>
    have hpending : s'.lexeme.2.pending = s.pending := by
      unfold lexeme
      split
      · rfl
      · simp only
        split <;> rfl
    rw [hl] at hpending
    exact hpending ▸ List.suffix_refl _

end Scanner

/-! ## Productions that come back have taken a token -/

namespace Compiler

variable {g g' : Goal} {agenda goals : List Goal} {s s' : State} {code : List Instruction}

theorem suffix_of_step (h : step s g = .ok (goals, s')) : s'.input.tokens <:+ s.input.tokens := by
  obtain ⟨ts, hled⟩ := led_of_step [] h
  exact ⟨ts, hled.tokens.symm⟩

theorem Emits.suffix (h : Emits agenda s code s') : s'.input.tokens <:+ s.input.tokens := by
  unfold Emits at h
  fun_induction trace agenda s generalizing code with
  | case1 s =>
    obtain ⟨-, hs⟩ := Prod.mk.inj h
    exact Except.ok.inj hs ▸ List.suffix_refl _
  | case2 code' agenda s later result hr ih =>
    obtain ⟨-, rfl⟩ := Prod.mk.inj h
    exact ih hr
  | case3 g agenda s hg goals s₁ hs ih => exact (ih h).trans (suffix_of_step hs)
  | case4 => simp at h

/-- Work on the first goal comes to the second: a step on the first leaves the second behind other
goals, and these have been worked off. -/
def Leads (p q : Goal × State) : Prop :=
  ∃ before after s code, step p.2 p.1 = .ok (before ++ q.1 :: after, s) ∧ Emits before s code q.2

namespace Leads

variable {p q : Goal × State}

theorem suffix (h : Leads p q) : q.2.input.tokens <:+ p.2.input.tokens := by
  obtain ⟨before, after, s, code, hstep, hemits⟩ := h
  exact hemits.suffix.trans (suffix_of_step hstep)

theorem potential_lt (h : Leads p q) : potential [q.1] q.2 < potential [p.1] p.2 := by
  obtain ⟨before, after, s, code, hstep, hemits⟩ := h
  have hlt := potential_step_lt hstep
  have hle := hemits.suffix.length_le
  simp only [potential, tokenWeight, totalWeight_append, totalWeight_cons, totalWeight_nil] at hlt ⊢
  omega

end Leads

/-- The goals are of the same production, whatever their parameters. -/
def Goal.Alike (g g' : Goal) : Prop := g.ctorIdx = g'.ctorIdx

theorem Goal.weight_eq_of_alike (h : g.Alike g') : g.weight = g'.weight := by
  cases g <;> cases g' <;> simp_all [Alike, weight, Goal.ctorIdx]

theorem Leads.potential_lt_of_transGen {p q : Goal × State} (h : Relation.TransGen Leads p q) :
    potential [q.1] q.2 < potential [p.1] p.2 := by
  induction h with
  | single h => exact h.potential_lt
  | tail _ h ih => exact h.potential_lt.trans ih

theorem Leads.suffix_of_transGen {p q : Goal × State} (h : Relation.TransGen Leads p q) :
    q.2.input.tokens <:+ p.2.input.tokens := by
  induction h with
  | single h => exact h.suffix
  | tail _ h ih => exact h.suffix.trans ih

/-- Wherever a production comes back, by recursion or in the next round of a loop, at least one
token has been taken in between. -/
theorem exists_taken_of_cycle {p q : Goal × State} (h : Relation.TransGen Leads p q)
    (halike : p.1.Alike q.1) :
    ∃ taken, taken ≠ [] ∧ p.2.input.tokens = taken ++ q.2.input.tokens := by
  obtain ⟨taken, htaken⟩ := Leads.suffix_of_transGen h
  refine ⟨taken, ?_, htaken.symm⟩
  rintro rfl
  have hlt := Leads.potential_lt_of_transGen h
  simp only [potential, totalWeight_cons, totalWeight_nil, Goal.weight_eq_of_alike halike,
    ← htaken, List.nil_append] at hlt
  omega

end Compiler

/-! ## Working with fuel -/

/-- The lines of the source have at most so many bytes, and none is empty: a line ends with a
newline, or is what stands behind the last one. -/
structure Source.Delivers (source : Source) (bytes : Nat) : Prop where
  ne_nil : ∀ line, .ok line ∈ source → line ≠ []
  bytesOf_le : Scanner.bytesOf source ≤ bytes

namespace Scanner

variable {s s' : Scanner} {fuel : Nat}

/-- The next token. Entering a line takes fuel. -/
def nextWithin : Nat → Scanner → Option (Except ScanError (Option Token) × Scanner)
  | 0, _ => none
  | fuel + 1, s =>
    let s' := s.skipBlanks
    if s'.rest.isEmpty then
      match s.pending with
      | [] => some (.ok none, s')
      | .error reason :: pending => some (.error (.read reason), { s' with pending })
      | .ok line :: pending => (s'.enterLine line pending).nextWithin fuel
    else
      let (result, after) := s'.lexeme
      some (result.map some, after)

/-- The rest of the source, up to its first failure. Every token takes fuel. -/
def tokensWithin : Nat → Scanner → Option TokenStream
  | 0, _ => none
  | fuel + 1, s => do
    match ← s.nextWithin (fuel + 1) with
    | (.ok (some t), s') =>
      let later ← s'.tokensWithin fuel
      return { later with tokens := t :: later.tokens }
    | (.ok none, _) => return { tokens := [] }
    | (.error e, _) => return { tokens := [], stop := some e }

theorem nextWithin_eq (hfull : ∀ line, .ok line ∈ s.pending → line ≠ [])
    (h : bytesOf s.pending < fuel) : s.nextWithin fuel = some s.next := by
  induction fuel generalizing s with
  | zero => omega
  | succ fuel ih =>
    rw [nextWithin]
    split
    · rename_i hr
      have hrest : s.skipBlanks.rest = [] := List.isEmpty_iff.1 hr
      split <;> rename_i hp
      · rw [next_of_end hrest hp]
      · rw [next_of_failure hrest hp]
      · rename_i line pending
        have hne := hfull line (by simp [hp])
        have hpos := byteSize_pos hne
        rw [hp, bytesOf] at h
        have hlater : ∀ line', .ok line' ∈ pending → line' ≠ [] := fun line' hline =>
          hfull line' (hp ▸ List.mem_cons_of_mem _ hline)
        rw [next_of_line hrest hp]
        exact ih hlater (by simp only [enterLine]; omega)
    · rename_i hr
      rw [next_of_lexeme (mt List.isEmpty_iff.2 hr)]

theorem tokensWithin_eq (hfull : ∀ line, .ok line ∈ s.pending → line ≠ [])
    (h : s.bytesAhead < fuel) : s.tokensWithin fuel = some s.tokens := by
  induction fuel generalizing s with
  | zero => omega
  | succ fuel ih =>
    have hpending : bytesOf s.pending < fuel + 1 := by
      simp only [bytesAhead] at h
      omega
    rw [tokensWithin, nextWithin_eq hfull hpending, tokens_eq]
    rcases hn : s.next with ⟨e | _ | t, s'⟩
    · rfl
    · rfl
    · have hlt := bytesAhead_lt_of_next hn
      have hsuffix := s.pending_next_suffix
      rw [hn] at hsuffix
      have htokens := ih (s := s') (fun line hline => hfull line (hsuffix.subset hline)) (by omega)
      simp [htokens]

end Scanner

namespace Compiler

variable {σ : Type} [Sink σ] {agenda : List Goal} {s : State} {sink : σ} {fuel : Nat}

/-- Works through an agenda. Every goal takes fuel. -/
def runWithin : Nat → List Goal → State → σ → Option (Except Error Unit × σ)
  | 0, _, _, _ => none
  | _ + 1, [], _, sink => some (.ok (), sink)
  | fuel + 1, .emit code :: agenda, s, sink =>
    match Sink.writeAll sink code with
    | (sink, none) => runWithin fuel agenda s sink
    | (sink, some reason) => some (.error (.emit reason), sink)
  | fuel + 1, .note remark :: agenda, s, sink => runWithin fuel agenda s (Sink.note sink remark)
  | fuel + 1, g :: agenda, s, sink =>
    match step s g with
    | .ok (goals, s') => runWithin fuel (goals ++ agenda) s' sink
    | .error e => some (.error e, sink)

theorem runWithin_eq (h : potential agenda s < fuel) :
    runWithin fuel agenda s sink = some (run agenda s sink) := by
  induction fuel generalizing agenda s sink with
  | zero => omega
  | succ fuel ih =>
    fun_cases run agenda s sink with
    | case1 => rfl
    | case2 code agenda s sink sink' hw =>
      have hlt := potential_cons_lt (g := .emit code) agenda s
      rw [runWithin, hw]
      exact ih (by omega)
    | case3 code agenda s sink sink' reason hw => rw [runWithin, hw]
    | case4 remark agenda s sink =>
      have hlt := potential_cons_lt (g := .note remark) agenda s
      exact ih (by omega)
    | case5 g agenda s sink hemit hnote goals s' hs =>
      have hlt := potential_append_lt agenda hs
      rw [runWithin, hs]
      · exact ih (by omega)
      · exact hemit
      · exact hnote
    | case6 g agenda s sink hemit hnote e hs =>
      rw [runWithin, hs]
      · exact hemit
      · exact hnote

end Compiler

/-- Compiles one class into a sink, with bounded fuel. -/
def compileWithin {σ : Type} [Sink σ] (fuel : Nat) (source : Source) (sink : σ) :
    Option (Except Error Unit × σ) := do
  match ← (Scanner.ofSource source).tokensWithin fuel with
  | ⟨[], some e⟩ => return (.error (.scan e), sink)
  | input => Compiler.runWithin fuel [.classDeclaration] { input } sink

open Scanner Compiler in
theorem compileWithin_eq {σ : Type} [Sink σ] {source : Source} {bytes : Nat}
    (h : source.Delivers bytes) (sink : σ) :
    compileWithin (16 * bytes + 2) source sink = some (compile source sink) := by
  have hahead : (ofSource source).bytesAhead = bytesOf source := Nat.zero_add _
  have hbytes := h.bytesOf_le
  have hlength := length_tokens_le_bytesAhead (ofSource source)
  rw [hahead] at hlength
  have htokens : (ofSource source).tokensWithin (16 * bytes + 2) = some (.ofSource source) :=
    tokensWithin_eq h.ne_nil (by omega)
  have hrun : runWithin (16 * bytes + 2) [.classDeclaration] { input := .ofSource source } sink =
      some (run [.classDeclaration] { input := .ofSource source } sink) := by
    refine runWithin_eq ?_
    have hweight : Goal.classDeclaration.weight = 1 := rfl
    simp only [potential, totalWeight_cons, totalWeight_nil, hweight, tokenWeight,
      TokenStream.ofSource]
    omega
  simp only [compileWithin, htokens, compile, compileTokens]
  split <;> simp_all

/-! ## Bytes of sources -/

namespace Source

open Scanner

variable {source : Source} {lines : List (List Char)} {bytes : Nat}

theorem Delivers.mono (h : source.Delivers bytes) {more : Nat} (hle : bytes ≤ more) :
    source.Delivers more :=
  ⟨h.ne_nil, h.bytesOf_le.trans hle⟩

theorem Delivers.concat_error (h : source.Delivers bytes) (reason : String) :
    Delivers (source ++ [.error reason]) bytes where
  ne_nil line hline := h.ne_nil line (by simpa using hline)
  bytesOf_le := by
    have hsame : bytesOf (source ++ [.error reason]) = bytesOf source := by
      clear h
      induction source with
      | nil => rfl
      | cons read source ih => cases read <;> simp [bytesOf, ih]
    exact hsame ▸ h.bytesOf_le

theorem delivers_ofLines (h : ∀ line ∈ lines, line ≠ []) :
    (ofLines lines).Delivers (byteSize lines.flatten) where
  ne_nil line hline := h line (by simpa [ofLines] using hline)
  bytesOf_le := Nat.le_of_eq (bytesOf_ofLines lines)

theorem delivers_ofString (text : String) : (ofString text).Delivers text.utf8ByteSize := by
  have hne : ∀ line ∈ linesEnding (· = '\n') text.toList, line ≠ [] := fun _ =>
    ne_nil_of_mem_linesEnding _
  have h := delivers_ofLines hne
  rwa [flatten_linesEnding, ← utf8ByteSize_ofList, String.ofList_toList] at h

theorem delivers_ofStringBreaking (reason : String) (room : Nat) (text : String) :
    (ofStringBreaking reason room text).Delivers text.utf8ByteSize := by
  have hwhole := delivers_ofString text
  unfold ofStringBreaking
  rcases breakingAfter_cases reason room (linesEnding (· = '\n') text.toList) with
    h | ⟨delivered, lost, hlines, h⟩ <;> rw [h]
  · exact hwhole
  · have hne : ∀ line ∈ linesEnding (· = '\n') text.toList, line ≠ [] := fun _ =>
      ne_nil_of_mem_linesEnding _
    have hdelivered : (ofLines delivered).Delivers (byteSize delivered.flatten) :=
      delivers_ofLines fun line hline => hne line (hlines ▸ List.mem_append_left _ hline)
    refine (hdelivered.mono ?_).concat_error reason
    rw [← String.ofList_toList (s := text), utf8ByteSize_ofList,
      ← flatten_linesEnding (· = '\n') text.toList, hlines, List.flatten_append, byteSize_append]
    exact Nat.le_add_right _ _

theorem length_of_decodeLine {bytes : List UInt8} {line : List Char}
    (h : decodeLine bytes = .ok line) : byteSize line = bytes.length := by
  simp only [decodeLine, String.fromUTF8?] at h
  split at h
  · rename_i text htext
    split at htext
    · obtain rfl := Except.ok.inj h
      obtain rfl := Option.some.inj htext
      rw [← utf8ByteSize_ofList, String.ofList_toList]
      rfl
    · simp at htext
  · simp at h

theorem length_toList_loop (bytes : ByteArray) (i : Nat) (before : List UInt8) :
    (ByteArray.toList.loop bytes i before).length = before.length + (bytes.size - i) := by
  fun_induction ByteArray.toList.loop bytes i before with
  | case1 i before h ih =>
    rw [ih, List.length_cons]
    omega
  | case2 i before h =>
    rw [List.length_reverse]
    omega

theorem delivers_ofBytes (bytes : ByteArray) : (ofBytes bytes).Delivers bytes.size where
  ne_nil line hline := by
    obtain ⟨raw, hraw, hdecode⟩ := List.mem_map.1 hline
    have hlength := length_of_decodeLine hdecode
    rintro rfl
    exact ne_nil_of_mem_linesEnding _ hraw (List.length_eq_zero_iff.1 hlength.symm)
  bytesOf_le := by
    have hlines : ∀ lines : List (List UInt8),
        bytesOf (lines.map decodeLine) ≤ lines.flatten.length := by
      intro lines
      induction lines with
      | nil => exact Nat.le_refl _
      | cons raw lines ih =>
        rw [List.map_cons, List.flatten_cons, List.length_append]
        rcases hdecode : decodeLine raw with reason | line
        · rw [bytesOf]
          omega
        · rw [bytesOf, length_of_decodeLine hdecode]
          omega
    have hsize : bytes.toList.length = bytes.size := by
      rw [ByteArray.toList, length_toList_loop, List.length_nil, Nat.zero_add, Nat.sub_zero]
    have h := hlines (linesEnding (· = 10) bytes.toList)
    rwa [flatten_linesEnding, hsize] at h

end Source

open Compiler in
/-- A call that comes to a lexeme moves on in the source, a production that comes back has taken a
token, and fuel that is linear in the bytes of the source never runs out; whatever these bytes
are, and even if the reader breaks down. -/
theorem compile_ends :
    (∀ s : Scanner, (Scanner.lexemeOf? s.next.1).isSome → s.offset < s.next.2.offset) ∧
      (∀ p q : Goal × State, Relation.TransGen Leads p q → p.1.Alike q.1 →
        ∃ taken, taken ≠ [] ∧ p.2.input.tokens = taken ++ q.2.input.tokens) ∧
      (∀ {σ : Type} [Sink σ] (source : Source) (bytes : Nat) (sink : σ), source.Delivers bytes →
        compileWithin (16 * bytes + 2) source sink = some (compile source sink)) ∧
      (∀ bytes : ByteArray, (Source.ofBytes bytes).Delivers bytes.size) ∧
      ∀ text : String, (Source.ofString text).Delivers text.utf8ByteSize ∧
        ∀ reason room, (Source.ofStringBreaking reason room text).Delivers text.utf8ByteSize := by
  refine ⟨fun s => Scanner.offset_lt_next, fun p q => exists_taken_of_cycle,
    fun source bytes sink h => compileWithin_eq h sink, Source.delivers_ofBytes, fun text => ?_⟩
  exact ⟨Source.delivers_ofString text, fun reason room =>
    Source.delivers_ofStringBreaking reason room text⟩

/-- The beginning of a term in parentheses, and the same place one token on. -/
def parenthesis : Compiler.State where
  input := ⟨[⟨.symbol '(', "(", ⟨0, 1⟩⟩, ⟨.integer 1, "1", ⟨1, 2⟩⟩], none⟩

def behindParenthesis : Compiler.State where
  input := ⟨[⟨.integer 1, "1", ⟨1, 2⟩⟩], none⟩

/-- A scanner in front of a lexeme that is no token. -/
def beforeBadLexeme : Scanner := { pending := [], rest := " 9é;".toList }

/-- A line, and bytes behind it that are no text. -/
def strayBytes : ByteArray := ⟨#[99, 10, 255]⟩

open Compiler Scanner in
theorem compile_ends_parenthesis :
    ((lexemeOf? beforeBadLexeme.next.1).isSome ∧
        beforeBadLexeme.offset < beforeBadLexeme.next.2.offset) ∧
      (Relation.TransGen Leads (.term, parenthesis) (.term, behindParenthesis) ∧
        ∃ taken, taken ≠ [] ∧
          parenthesis.input.tokens = taken ++ behindParenthesis.input.tokens) ∧
      (Source.ofBytes strayBytes).Delivers 3 ∧
      compileWithin 50 (.ofBytes strayBytes) ({} : Collector) =
        some (compile (.ofBytes strayBytes) {}) := by
  obtain ⟨hmoves, htakes, hends, hbytes, -⟩ := compile_ends
  have hlexeme : (lexemeOf? beforeBadLexeme.next.1).isSome := by
    rw [next_of_lexeme (by decide)]
    decide
  have hterm : Leads (.term, parenthesis) (.expression, behindParenthesis) :=
    ⟨[], [.symbol ')'], behindParenthesis, [], rfl, by simp [Emits, trace]⟩
  have hexpression : Leads (.expression, behindParenthesis) (.term, behindParenthesis) :=
    ⟨[], [.operators], behindParenthesis, [], rfl, by simp [Emits, trace]⟩
  have hcycle := (Relation.TransGen.single hterm).tail hexpression
  have hdelivers := hbytes strayBytes
  exact ⟨⟨hlexeme, hmoves _ hlexeme⟩, ⟨hcycle, htakes _ _ hcycle rfl⟩, hdelivers,
    hends _ 3 ({} : Collector) hdelivers⟩

end Jack

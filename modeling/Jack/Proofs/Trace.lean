import Jack.Compiler.Run

/-!
# What an agenda writes

`trace` works through an agenda as `run` does, but keeps the code instead of handing it to a sink.
Every run into a sink that ignores remarks is its trace written to that sink (`run_eq_writeAll`):
the sink can only stop the output. So a class compiles if its agenda is worked off without an error,
and its instructions are then those of the trace (`compileClass_eq_ok`).
-/

namespace Jack

namespace Sink

variable {σ : Type} [Sink σ]

theorem writeAll_append (sink : σ) :
    ∀ (first rest : List Instruction), writeAll sink (first ++ rest) =
      match writeAll sink first with
      | (sink, none) => writeAll sink rest
      | (sink, some reason) => (sink, some reason)
  | [], rest => rfl
  | i :: first, rest => by
    simp only [List.cons_append, writeAll]
    rcases write sink i with ⟨sink', _ | reason⟩
    · exact writeAll_append sink' first rest
    · rfl

/-- A collector without a capacity takes everything. -/
theorem writeAll_collector (items : Array Instruction) :
    ∀ code : List Instruction, writeAll ({ items } : Collector) code =
      ({ items := items ++ code.toArray }, none)
  | [] => by simp [writeAll]
  | i :: code => by
    have ih := writeAll_collector (items.push i) code
    simp only [writeAll, write, Option.any_none, Bool.false_eq_true, ↓reduceIte] at ih ⊢
    rw [ih]
    simp

end Sink

namespace Compiler

/-- The code of an agenda, and the state behind it or the error that ends it. -/
def trace : List Goal → State → List Instruction × Except Error State
  | [], s => ([], .ok s)
  | .emit code :: agenda, s =>
    let (later, result) := trace agenda s
    (code ++ later, result)
  | g :: agenda, s =>
    match _h : step s g with
    | .ok (goals, s') => trace (goals ++ agenda) s'
    | .error e => ([], .error e)
termination_by agenda s => potential agenda s
decreasing_by
  · exact potential_cons_lt agenda s
  · exact potential_append_lt agenda _h

section Trace

variable {g : Goal} {agenda goals : List Goal} {s s' : State} {e : Error}

theorem trace_emit (code : List Instruction) (agenda : List Goal) (s : State) :
    trace (.emit code :: agenda) s = (code ++ (trace agenda s).1, (trace agenda s).2) := by rw [trace]

theorem trace_step (hg : ∀ code, g ≠ .emit code) (h : step s g = .ok (goals, s')) :
    trace (g :: agenda) s = trace (goals ++ agenda) s' := by
  rw [trace]
  · split <;> rename_i h' <;> rw [h] at h'
    · simp only [Except.ok.injEq, Prod.mk.injEq] at h'
      rw [h'.1, h'.2]
    · simp at h'
  · exact hg

theorem trace_step_error (hg : ∀ code, g ≠ .emit code) (h : step s g = .error e) :
    trace (g :: agenda) s = ([], .error e) := by
  rw [trace]
  · split <;> rename_i h' <;> rw [h] at h'
    · simp at h'
    · simp only [Except.error.injEq] at h'
      rw [h']
  · exact hg

end Trace

/-- The agenda is worked off with this code, and leaves this state. -/
def Emits (agenda : List Goal) (s : State) (code : List Instruction) (s' : State) : Prop :=
  trace agenda s = (code, .ok s')

variable {σ : Type} [Sink σ]

theorem run_eq_writeAll (hn : ∀ (sink : σ) (remark : Remark), Sink.note sink remark = sink)
    (agenda : List Goal) (s : State) (sink : σ) :
    run agenda s sink =
      match Sink.writeAll sink (trace agenda s).1 with
      | (sink, none) => ((trace agenda s).2.map fun _ => (), sink)
      | (sink, some reason) => (.error (.emit reason), sink) := by
  fun_induction trace agenda s generalizing sink with
  | case1 s => simp [Sink.writeAll, Except.map]
  | case2 code agenda s later result h ih =>
    rw [run_emit, Sink.writeAll_append]
    rcases Sink.writeAll sink code with ⟨sink', _ | reason⟩
    · simpa only [h] using ih sink'
    · rfl
  | case3 g agenda s hg goals s' h ih =>
    by_cases hr : ∃ remark, g = .note remark
    · obtain ⟨remark, rfl⟩ := hr
      simp only [step, Except.ok.injEq, Prod.mk.injEq] at h
      obtain ⟨rfl, rfl⟩ := h
      rw [run_note, hn]
      exact ih sink
    · rw [run_step ⟨hg, fun remark h => hr ⟨remark, h⟩⟩ h]
      exact ih sink
  | case4 g agenda s hg e h =>
    have hr : ∀ remark, g ≠ .note remark := by
      rintro remark rfl
      simp [step] at h
    rw [run_step_error ⟨hg, hr⟩ h]
    rfl

/-- A collector takes what is traced, whether or not there is an error behind it. -/
theorem compileTokens_eq_trace {input : TokenStream}
    (h : ¬ (input.tokens = [] ∧ input.stop.isSome)) :
    compileTokens input ({} : Collector) =
      ((trace [.classDeclaration] { input }).2.map fun _ => (),
        { items := (trace [.classDeclaration] { input }).1.toArray }) := by
  have hrun := run_eq_writeAll (σ := Collector) (fun _ _ => rfl) [.classDeclaration] { input } {}
  simp only [Sink.writeAll_collector, Array.empty_append] at hrun
  unfold compileTokens
  split
  · simp at h
  · exact hrun

theorem compileTokens_eq_ok {input : TokenStream} {sink : Collector} :
    compileTokens input ({} : Collector) = (.ok (), sink) ↔
      ¬ (input.tokens = [] ∧ input.stop.isSome) ∧
        ∃ code s, Emits [.classDeclaration] { input } code s ∧ sink = { items := code.toArray } := by
  by_cases hne : input.tokens = [] ∧ input.stop.isSome
  · obtain ⟨tokens, stop⟩ := input
    obtain ⟨rfl, hs⟩ : tokens = [] ∧ stop.isSome := hne
    obtain ⟨e, rfl⟩ := Option.isSome_iff_exists.1 hs
    simp [compileTokens]
  · rw [compileTokens_eq_trace hne]
    simp only [hne, not_false_eq_true, true_and, Emits]
    rcases trace [.classDeclaration] _ with ⟨code, e | s⟩
    · simp [Except.map]
    · simp [Except.map, eq_comm]

/-- What a class compiles to. -/
theorem compileClass_eq_ok {source : Source} {code : List Instruction} :
    compileClass source = .ok code ↔
      ¬ ((TokenStream.ofSource source).tokens = [] ∧ (TokenStream.ofSource source).stop.isSome) ∧
        ∃ s, Emits [.classDeclaration] { input := .ofSource source } code s := by
  have h := @compileTokens_eq_ok (.ofSource source)
  unfold compileClass compile
  rcases hc : compileTokens (TokenStream.ofSource source) ({} : Collector) with ⟨e | u, sink⟩
  · simp only [reduceCtorEq, false_iff]
    rintro ⟨hne, s, hs⟩
    have := h.2 ⟨hne, code, s, hs, rfl⟩
    rw [hc] at this
    simp at this
  · obtain ⟨hne, code', s, hs, rfl⟩ := h.1 hc
    simp only [Except.ok.injEq]
    refine ⟨?_, ?_⟩
    · rintro rfl
      exact ⟨hne, s, by simpa using hs⟩
    · rintro ⟨-, s', hs'⟩
      simp only [Emits] at hs hs'
      rw [hs] at hs'
      simp only [Prod.mk.injEq] at hs'
      simp [hs'.1]

end Compiler

end Jack

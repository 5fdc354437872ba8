import Jack.Compiler.Step

/-!
# Compiling a class

`run` works through an agenda, writing code to a sink as it comes up; the first error ends it, be
it in the text or a refused instruction (`step_error_of_run`). It ends on every input, as each step
uses up potential.
`compile` starts it on the one goal of a class declaration, once the first token has decoded.
-/

namespace Jack

namespace Compiler

variable {σ : Type} [Sink σ]

theorem potential_cons_lt {g : Goal} (agenda : List Goal) (s : State) :
    potential agenda s < potential (g :: agenda) s := by
  have : 0 < g.weight := by cases g <;> simp [Goal.weight]
  simp only [potential, totalWeight_cons]; omega

theorem potential_append_lt {s s' : State} {g : Goal} {goals : List Goal} (agenda : List Goal)
    (h : step s g = .ok (goals, s')) :
    potential (goals ++ agenda) s' < potential (g :: agenda) s := by
  have := potential_step_lt h
  simp only [potential, totalWeight_append, totalWeight_cons, totalWeight_nil] at this ⊢
  omega

def run : List Goal → State → σ → Except Error Unit × σ
  | [], _, sink => (.ok (), sink)
  | .emit code :: agenda, s, sink =>
    match Sink.writeAll sink code with
    | (sink, none) => run agenda s sink
    | (sink, some reason) => (.error (.emit reason), sink)
  | .note remark :: agenda, s, sink => run agenda s (Sink.note sink remark)
  | g :: agenda, s, sink =>
    match _h : step s g with
    | .ok (goals, s') => run (goals ++ agenda) s' sink
    | .error e => (.error e, sink)
termination_by agenda s => potential agenda s
decreasing_by
  · exact potential_cons_lt agenda s
  · exact potential_cons_lt agenda s
  · exact potential_append_lt agenda _h

@[simp] theorem run_nil (s : State) (sink : σ) : run [] s sink = (.ok (), sink) := by rw [run]

theorem run_emit (code : List Instruction) (agenda : List Goal) (s : State) (sink : σ) :
    run (.emit code :: agenda) s sink = match Sink.writeAll sink code with
      | (sink, none) => run agenda s sink
      | (sink, some reason) => (.error (.emit reason), sink) := by rw [run]

theorem run_note (remark : Remark) (agenda : List Goal) (s : State) (sink : σ) :
    run (.note remark :: agenda) s sink = run agenda s (Sink.note sink remark) := by rw [run]

/-- The goal reads the text; it makes no output. -/
def Goal.Reads (g : Goal) : Prop := (∀ code, g ≠ .emit code) ∧ ∀ remark, g ≠ .note remark

theorem run_step {g : Goal} {agenda goals : List Goal} {s s' : State} {sink : σ}
    (hg : g.Reads) (h : step s g = .ok (goals, s')) :
    run (g :: agenda) s sink = run (goals ++ agenda) s' sink := by
  rw [run]
  · split <;> rename_i h' <;> rw [h] at h'
    · simp only [Except.ok.injEq, Prod.mk.injEq] at h'
      rw [h'.1, h'.2]
    · simp at h'
  · exact hg.1
  · exact hg.2

theorem run_step_error {g : Goal} {agenda : List Goal} {s : State} {sink : σ} {e : Error}
    (hg : g.Reads) (h : step s g = .error e) :
    run (g :: agenda) s sink = (.error e, sink) := by
  rw [run]
  · split <;> rename_i h' <;> rw [h] at h'
    · simp at h'
    · simp only [Except.error.injEq] at h'
      rw [h']
  · exact hg.1
  · exact hg.2

/-- A run fails as an instruction is refused, or at a goal whose step fails; what every step
preserves still holds there. -/
theorem step_error_of_run {P : List Goal → State → Prop}
    (hstep : ∀ {g : Goal} {goals agenda : List Goal} {s s' : State},
      P (g :: agenda) s → step s g = .ok (goals, s') → P (goals ++ agenda) s')
    {agenda : List Goal} {s : State} {sink : σ} {e : Error} (h : P agenda s)
    (herror : (run agenda s sink).1 = .error e) :
    (∃ reason, e = .emit reason) ∨ ∃ g agenda' s', P (g :: agenda') s' ∧ step s' g = .error e := by
  fun_induction run agenda s sink with
  | case1 => simp at herror
  | case2 code agenda s sink sink' hw ih => exact ih (hstep h rfl) herror
  | case3 code agenda s sink sink' reason hw => exact .inl ⟨reason, (Except.error.inj herror).symm⟩
  | case4 remark agenda s sink ih => exact ih (hstep h rfl) herror
  | case5 g agenda s sink _ _ goals s' hs ih => exact ih (hstep h hs) herror
  | case6 g agenda s sink _ _ e' hs =>
    exact .inr ⟨g, agenda, s, h, hs.trans (congrArg Except.error (Except.error.inj herror))⟩

def compileTokens (input : TokenStream) (sink : σ) : Except Error Unit × σ :=
  match input with
  | ⟨[], some e⟩ => (.error (.scan e), sink)
  | _ => run [.classDeclaration] { input } sink

end Compiler

/-- Compiles one class into a sink. -/
def compile {σ : Type} [Sink σ] (source : Source) (sink : σ) : Except Error Unit × σ :=
  Compiler.compileTokens (TokenStream.ofSource source) sink

/-- The instructions of a class. -/
def compileClass (source : Source) : Except Error (List Instruction) :=
  match compile source ({} : Collector) with
  | (.ok _, sink) => .ok sink.items.toList
  | (.error e, _) => .error e

/-- The text of the instructions of a class. -/
def compileText (source : String) : Except Error String :=
  Instruction.listing <$> compileClass (.ofString source)

end Jack

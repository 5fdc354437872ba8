import Jack.Proofs.Definitions
import Jack.Proofs.Labels

/-!
# The code of a class

The code of a class is a row of definitions, one for each subroutine (`codeOf_definitions`). No other
function begins in the body of one, no label stands in it twice, and its jumps stay in it.
-/

namespace Jack.Syntax

open Compiler Machine

variable {k : ClassDeclaration} {d : SubroutineDeclaration} {i w : Nat}

/-- The function that a subroutine compiles to. -/
def SubroutineDeclaration.definition (k : ClassDeclaration) (i w : Nat)
    (d : SubroutineDeclaration) : Definition where
  name := k.name ++ "." ++ d.name
  localCount := (d.locals.flatMap (·.names)).length
  body := bindObject (k.declared.countP (·.kind = .field)) d.kind ++ d.body.code (bindings k d) i w

def definitionsFrom (k : ClassDeclaration) (i w : Nat) :
    List SubroutineDeclaration → List Definition
  | [] => []
  | d :: rest =>
    d.definition k i w :: definitionsFrom k (i + d.body.ifs) (w + d.body.whiles) rest

def ClassDeclaration.definitions (k : ClassDeclaration) : List Definition :=
  definitionsFrom k 0 0 k.subroutines

theorem codeOf_definitionsFrom (ds : List SubroutineDeclaration) (i w : Nat) :
    codeOf (definitionsFrom k i w ds) = subroutinesCode k i w ds := by
  induction ds generalizing i w with
  | nil => rfl
  | cons d ds ih =>
    rw [definitionsFrom, codeOf_cons, ih, subroutinesCode]
    rfl

theorem ClassDeclaration.codeOf_definitions (k : ClassDeclaration) :
    codeOf k.definitions = k.code := codeOf_definitionsFrom _ 0 0

theorem names_definitionsFrom (ds : List SubroutineDeclaration) (i w : Nat) :
    (definitionsFrom k i w ds).map (·.name) = ds.map fun d => k.name ++ "." ++ d.name := by
  induction ds generalizing i w with
  | nil => rfl
  | cons d ds ih => rw [definitionsFrom, List.map_cons, ih, List.map_cons]; rfl

/-- Each definition is that of a subroutine, behind those of the ones before it. -/
theorem definitionsFrom_split {ds ds' : List SubroutineDeclaration} :
    ∃ j v, definitionsFrom k i w (ds ++ d :: ds') = definitionsFrom k i w ds ++
      d.definition k j v :: definitionsFrom k (j + d.body.ifs) (v + d.body.whiles) ds' := by
  induction ds generalizing i w with
  | nil => exact ⟨i, w, rfl⟩
  | cons e ds ih =>
    obtain ⟨j, v, h⟩ := @ih (i + e.body.ifs) (w + e.body.whiles)
    exact ⟨j, v, by rw [List.cons_append, definitionsFrom, h, definitionsFrom, List.cons_append]⟩

theorem exists_subroutine_of_mem {ds : List SubroutineDeclaration} {e : Definition}
    (h : e ∈ definitionsFrom k i w ds) : ∃ d ∈ ds, ∃ j v, e = d.definition k j v := by
  induction ds generalizing i w with
  | nil => simp [definitionsFrom] at h
  | cons d ds ih =>
    rw [definitionsFrom, List.mem_cons] at h
    rcases h with rfl | h
    · exact ⟨d, by simp, i, w, rfl⟩
    · obtain ⟨d', hd', j, v, rfl⟩ := ih h
      exact ⟨d', List.mem_cons_of_mem _ hd', j, v, rfl⟩

theorem bare_bindObject (n : Nat) (kind : Subroutine.Kind) : Bare (bindObject n kind) := by
  cases kind <;>
    simp [Bare, bindObject, Routine.call, Instruction.label?, Instruction.target?]

theorem SubroutineDeclaration.labelled (k : ClassDeclaration) (d : SubroutineDeclaration)
    (i w : Nat) : Labelled (d.definition k i w).body i d.body.ifs w d.body.whiles := by
  rw [← Nat.zero_add d.body.ifs, ← Nat.zero_add d.body.whiles]
  exact (Labelled.of_bare (bare_bindObject _ _) i w).append (d.body.labelled i w)

theorem SubroutineDeclaration.whole (k : ClassDeclaration) (d : SubroutineDeclaration) (i w : Nat) :
    (d.definition k i w).Whole := by
  intro name n hmem
  rcases List.mem_append.1 hmem with h | h
  · cases hk : d.kind <;> simp [bindObject, hk, Routine.call] at h
  · cases d.body.occurs (.refl _) _ h with
    | compute h =>
      generalize hi : Instruction.function name n = i at h
      cases h with
      | this =>
        simp only [Bindings.this] at hi
        split at hi <;> simp at hi
      | _ => simp [Symbol.push, Routine.call] at hi

theorem ClassDeclaration.whole (k : ClassDeclaration) : ∀ e ∈ k.definitions, e.Whole := by
  intro e he
  obtain ⟨d, -, i, w, rfl⟩ := exists_subroutine_of_mem he
  exact d.whole k i w

theorem ClassDeclaration.isIn_code_iff {f : Definition} : f.IsIn k.code ↔ f ∈ k.definitions := by
  rw [← k.codeOf_definitions, isIn_codeOf k.whole]

end Jack.Syntax

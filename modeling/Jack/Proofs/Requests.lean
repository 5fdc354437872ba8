import Jack.Proofs.Control

/-!
# Requests

A machine is asked to run one function after another, whatever has become of the earlier runs
(`Served`); while it runs, it is `Running`. The limit on the steps of a run is of no account here: a
running machine is in a state that some run, cut off or not, goes through (`exists_running_of_run`).
-/

namespace Jack.Machine

variable {α : Type} {m₀ m m' : Machine}

/-- The machine that is left, with a value or with a fault. -/
def left : EStateM.Result Fault Machine α → Machine
  | .ok _ m' | .error _ m' => m'

/-- The machine behind a computation. -/
def after (x : Exec α) (m : Machine) : Machine := left (x.run m)

/-- The machine has been asked to run functions, and has done with all of them. -/
inductive Served (m₀ : Machine) : Machine → Prop
  | loaded : Served m₀ m₀
  | request {m : Machine} (h : Served m₀ m) (entry : String) : Served m₀ (after (run entry) m)

/-- The machine is in the middle of a run. -/
inductive Running (m₀ : Machine) : Machine → Prop
  | enter {entry : String} {m m' : Machine} (h : Served m₀ m)
    (henter : (enterFunction entry 0 none).run m = .ok () m') : Running m₀ m'
  | step {m m' : Machine} (h : Running m₀ m) (hstep : step.run m = .ok none m') : Running m₀ m'

/-! ## What no request changes -/

theorem Grown.refl (m : Machine) : Grown m m := ⟨rfl, Nat.le_refl _⟩

theorem grown_of_moves {r : EStateM.Result Fault Machine (Option Word)} (h : Moves m r) :
    Grown m (left r) := by
  cases h with
  | on hi hret h => exact (grown_next m).trans h.grown
  | jump hi ht hl h => exact ⟨h.program, h.heapEnd⟩
  | enter hi hb hf => exact ⟨rfl, Nat.le_refl _⟩
  | unknownFunction hi hb hf => exact grown_next m
  | ended hi => exact .refl m
  | leave | fault | unknownLabel | noCaller | popConstant => assumption

theorem grown_step (m : Machine) : Grown m (after step m) := grown_of_moves (moves_step m)

theorem grown_enterFunction (name : String) (count : Nat) (returnAddress : Option Nat)
    (m : Machine) : Grown m (after (enterFunction name count returnAddress) m) := by
  unfold after
  cases hf : m.program.functions[name]? with
  | none =>
    rw [run_enterFunction_of_none count returnAddress hf]
    exact .refl m
  | some entry =>
    rw [run_enterFunction count returnAddress hf]
    exact ⟨rfl, Nat.le_refl _⟩

theorem grown_steps (limit : Nat) (m : Machine) : Grown m (after (steps limit) m) := by
  induction limit generalizing m with
  | zero => exact .refl m
  | succ limit ih =>
    have hstep := grown_step m
    simp only [after, steps, run_bind] at hstep ⊢
    cases hrun : step.run m with
    | error f m₁ => rwa [hrun] at hstep
    | ok r m₁ =>
      rw [hrun] at hstep
      cases r with
      | none => exact hstep.trans (ih m₁)
      | some value => exact hstep

theorem grown_run (entry : String) (m : Machine) : Grown m (after (run entry) m) := by
  have henter := grown_enterFunction entry 0 none m
  simp only [after, run, run_bind] at henter ⊢
  cases hrun : (enterFunction entry 0 none).run m with
  | error f m₁ => rwa [hrun] at henter
  | ok _ m₁ =>
    rw [hrun] at henter
    exact henter.trans (grown_steps stepLimit m₁)

theorem Served.grown (h : Served m₀ m) : Grown m₀ m := by
  induction h with
  | loaded => exact .refl m₀
  | request _ entry ih => exact ih.trans (grown_run entry _)

/-- A running machine has the program that was loaded. -/
theorem Running.grown (h : Running m₀ m) : Grown m₀ m := by
  induction h with
  | @enter entry m m' h henter =>
    have hgrown := grown_enterFunction entry 0 none m
    rw [after, henter] at hgrown
    exact h.grown.trans hgrown
  | @step m m' _ hstep ih =>
    have hgrown := grown_step m
    rw [after, hstep] at hgrown
    exact ih.trans hgrown

/-! ## Faults of a run -/

theorem exists_running_of_steps {limit : Nat} {f : Fault} (hm : Running m₀ m)
    (h : (steps limit).run m = .error f m') :
    f = .stepLimit ∨ ∃ m₁, Running m₀ m₁ ∧ step.run m₁ = .error f m' := by
  induction limit generalizing m with
  | zero =>
    cases h
    exact .inl rfl
  | succ limit ih =>
    rw [steps, run_bind] at h
    cases hrun : step.run m with
    | error f' m₁ =>
      simp only [hrun, EStateM.Result.error.injEq] at h
      obtain ⟨rfl, rfl⟩ := h
      exact .inr ⟨m, hm, hrun⟩
    | ok r m₁ =>
      rw [hrun] at h
      cases r with
      | none => exact ih (hm.step hrun) h
      | some value => simp at h

/-- A run fails where it enters its function, after too many steps, or in a step. -/
theorem exists_running_of_run {entry : String} {f : Fault} (hm : Served m₀ m)
    (h : (run entry).run m = .error f m') :
    (m.program.functions[entry]? = none ∧ f = .unknownFunction entry) ∨ f = .stepLimit ∨
      ∃ m₁, Running m₀ m₁ ∧ step.run m₁ = .error f m' := by
  rw [run, run_bind] at h
  cases hf : m.program.functions[entry]? with
  | none =>
    simp only [run_enterFunction_of_none 0 none hf, EStateM.Result.error.injEq] at h
    exact .inl ⟨rfl, h.1.symm⟩
  | some pc =>
    have henter := run_enterFunction 0 none hf
    rw [henter] at h
    exact .inr (exists_running_of_steps (.enter hm henter) h)

end Jack.Machine

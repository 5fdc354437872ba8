import Jack.Proofs.Evaluation
import Jack.Proofs.Instructions

/-!
# Walking through code

`Placed p pc code` says that the code stands in the program at the address. A machine walks
(`Walk n`) when it takes `n` steps and meets no `return` on the way; there is only one way to walk
(`Walk.unique`). `Attempt` compares a walk with an evaluation: where the evaluation has a value, the
walk comes to the end of the code with it, and where it divides by zero, so does the machine.
-/

namespace Jack.Machine

open Syntax (Stop)

/-! ## Code in a program -/

/-- The code stands in the program at the address. -/
def Placed (p : Program) : Nat → List Instruction → Prop
  | _, [] => True
  | pc, i :: rest => p.code[pc]? = some i ∧ Placed p (pc + 1) rest

variable {p : Program}

@[simp] theorem placed_nil {pc : Nat} : Placed p pc [] ↔ True := Iff.rfl

theorem placed_cons {pc : Nat} {i : Instruction} {rest : List Instruction} :
    Placed p pc (i :: rest) ↔ p.code[pc]? = some i ∧ Placed p (pc + 1) rest := Iff.rfl

theorem placed_append {pc : Nat} {first rest : List Instruction} :
    Placed p pc (first ++ rest) ↔ Placed p pc first ∧ Placed p (pc + first.length) rest := by
  induction first generalizing pc with
  | nil => simp
  | cons i first ih =>
    rw [List.cons_append, placed_cons, ih, placed_cons, and_assoc, List.length_cons,
      Nat.add_right_comm, Nat.add_assoc]

/-! ## Walks -/

/-- So many steps, none of them at a `return`. -/
inductive Walk : Nat → Machine → Machine → Prop
  | refl (m : Machine) : Walk 0 m m
  | step {n : Nat} {m m₁ m' : Machine} (hret : m.instruction? ≠ some (.command .ret))
      (hstep : step.run m = .ok none m₁) (h : Walk n m₁ m') : Walk (n + 1) m m'

namespace Walk

variable {n n' : Nat} {m m₁ m' : Machine}

theorem single (hret : m.instruction? ≠ some (.command .ret)) (h : Machine.step.run m = .ok none m') :
    Walk 1 m m' := .step hret h (.refl m')

theorem trans (h : Walk n m m₁) (h' : Walk n' m₁ m') : Walk (n + n') m m' := by
  induction h with
  | refl m => rwa [Nat.zero_add]
  | step hret hstep _ ih =>
    rw [Nat.add_right_comm]
    exact .step hret hstep (ih h')

theorem unique (h : Walk n m m₁) (h' : Walk n m m') : m₁ = m' := by
  induction h with
  | refl m =>
    cases h'
    rfl
  | step _ hstep _ ih =>
    cases h' with
    | step _ hstep' h' =>
      rw [hstep] at hstep'
      cases hstep'
      exact ih h'

/-- A longer walk goes through where the shorter one ends. -/
theorem split (h : Walk (n + n') m m') : ∃ m₁, Walk n m m₁ ∧ Walk n' m₁ m' := by
  induction n generalizing m with
  | zero => exact ⟨m, .refl m, by rwa [Nat.zero_add] at h⟩
  | succ n ih =>
    rw [Nat.add_right_comm] at h
    cases h with
    | step hret hstep h =>
      obtain ⟨m₂, h₁, h₂⟩ := ih h
      exact ⟨m₂, .step hret hstep h₁, h₂⟩

/-- No walk leads on from a `return`. -/
theorem eq_zero (h : Walk n m m') (hret : m.instruction? = some (.command .ret)) : n = 0 := by
  cases h with
  | refl => rfl
  | step hne => exact absurd hret hne

/-- From a machine that comes to a `return` there is no longer walk. -/
theorem le_of_return (h : Walk n m m') (hret : m'.instruction? = some (.command .ret))
    (h' : Walk n' m m₁) : n' ≤ n := by
  rcases Nat.le_total n' n with hle | hle
  · exact hle
  · obtain ⟨i, rfl⟩ := Nat.exists_eq_add_of_le hle
    obtain ⟨m₂, h₂, hrest⟩ := h'.split
    obtain rfl := h₂.unique h
    rw [hrest.eq_zero hret]
    exact Nat.le_refl n

end Walk

/-- For so many steps the stack stays below the heap. -/
def Room (n : Nat) (m : Machine) : Prop :=
  ∀ k ≤ n, ∀ m', Walk k m m' → ∃ sp ≤ 2048, m'.word 0 = saturate sp

theorem Room.of_le {n k : Nat} {m : Machine} (h : Room n m) (hk : k ≤ n) : Room k m :=
  fun j hj => h j (Nat.le_trans hj hk)

theorem Room.of_walk {n k : Nat} {m m' : Machine} (h : Room (k + n) m) (hw : Walk k m m') :
    Room n m' :=
  fun j hj m'' hw' => h (k + j) (by omega) m'' (hw.trans hw')

theorem Room.le {n k sp : Nat} {m m' : Machine} (h : Room n m) (hk : k ≤ n) (hw : Walk k m m')
    (hsp : m'.word 0 = saturate sp) (hle : sp ≤ 32767) : sp ≤ 2048 := by
  obtain ⟨sp', hle', hsp'⟩ := h k hk m' hw
  have := saturate_inj hle (by omega) (hsp.symm.trans hsp')
  omega

/-! ## Walks and evaluations -/

/-- The machine walks to a division, and fails in it. -/
def DividesByZero (m : Machine) : Prop :=
  ∃ n m₁ m₂, Walk n m m₁ ∧ m₁.instruction? = some Routine.mathDivide.call ∧
    step.run m₁ = .error .divisionByZero m₂

theorem DividesByZero.of_walk {n : Nat} {m m' : Machine} (h : Walk n m m') (hd : DividesByZero m') :
    DividesByZero m := by
  obtain ⟨k, m₁, m₂, hw, hi, hf⟩ := hd
  exact ⟨n + k, m₁, m₂, h.trans hw, hi, hf⟩

/-- The division that fails is among the next instructions. -/
def DividesWithin (n : Nat) (m : Machine) : Prop :=
  ∃ k < n, ∃ m₁ m₂, Walk k m m₁ ∧ m₁.instruction? = some Routine.mathDivide.call ∧
    step.run m₁ = .error .divisionByZero m₂

namespace DividesWithin

variable {n n' : Nat} {m m' : Machine}

theorem dividesByZero (h : DividesWithin n m) : DividesByZero m := by
  obtain ⟨k, -, h⟩ := h
  exact ⟨k, h⟩

theorem mono (h : DividesWithin n m) (hle : n ≤ n') : DividesWithin n' m := by
  obtain ⟨k, hk, h⟩ := h
  exact ⟨k, Nat.lt_of_lt_of_le hk hle, h⟩

theorem of_walk (hw : Walk n m m') (h : DividesWithin n' m') : DividesWithin (n + n') m := by
  obtain ⟨k, hk, m₁, m₂, hw', hi, hf⟩ := h
  exact ⟨n + k, Nat.add_lt_add_left hk n, m₁, m₂, hw.trans hw', hi, hf⟩

/-- Where a division fails nothing goes on. -/
theorem not_walk (h : DividesWithin n m) : ¬ Walk n m m' := by
  obtain ⟨k, hk, m₁, m₂, hw, -, hf⟩ := h
  obtain ⟨l, rfl⟩ := Nat.exists_eq_add_of_lt hk
  intro hlong
  obtain ⟨m₃, hw', hrest⟩ := Walk.split (show Walk (k + (l + 1)) m m' from hlong)
  obtain rfl := hw.unique hw'
  cases hrest with
  | step _ hstep =>
    rw [hf] at hstep
    cases hstep

end DividesWithin

/-- With a value the machine walks so far and arrives as the condition says; without one it comes no
further than to the division. -/
def Attempt {α : Type} (m : Machine) (n : Nat) (result : Except Stop α) (post : α → Machine → Prop) :
    Prop :=
  match result with
  | .ok a => ∃ m', Walk n m m' ∧ post a m'
  | .error .divisionByZero => DividesWithin n m
  | .error _ => True

namespace Attempt

variable {α β : Type} {m : Machine} {n n' : Nat} {post post' : α → Machine → Prop}
  {post₂ : β → Machine → Prop}

theorem bind {x : Except Stop α} {f : α → Except Stop β} (h : Attempt m n x post)
    (hf : ∀ a m', Walk n m m' → post a m' → Attempt m' n' (f a) post₂) :
    Attempt m (n + n') (x >>= f) post₂ := by
  match x with
  | .error .divisionByZero => exact DividesWithin.mono h (Nat.le_add_right n n')
  | .error .outside | .error .foreign => trivial
  | .ok a =>
    obtain ⟨m', hw, hp⟩ := h
    have ha := hf a m' hw hp
    change Attempt m (n + n') (f a) post₂
    match hfa : f a with
    | .error .divisionByZero =>
      rw [hfa] at ha
      exact DividesWithin.of_walk hw ha
    | .error .outside | .error .foreign => trivial
    | .ok b =>
      rw [hfa] at ha
      obtain ⟨m'', hw', hp'⟩ := ha
      exact ⟨m'', hw.trans hw', hp'⟩

theorem imp {x : Except Stop α} (h : Attempt m n x post)
    (hp : ∀ a m', Walk n m m' → post a m' → post' a m') : Attempt m n x post' := by
  match x with
  | .error .divisionByZero => exact h
  | .error .outside | .error .foreign => trivial
  | .ok a =>
    obtain ⟨m', hw, ha⟩ := h
    exact ⟨m', hw, hp a m' hw ha⟩

theorem ok {m' : Machine} {a : α} (h : Walk n m m') (hp : post a m') :
    Attempt m n (.ok a) post := ⟨m', h, hp⟩

end Attempt

end Jack.Machine

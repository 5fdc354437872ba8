import Jack.Proofs.ExpressionRun
import Jack.Proofs.Shelter
import Jack.Proofs.StackDiscipline

/-!
# Calculations

The instructions of an expression work on top of the stack, and on the register that elements are read
through (`Calculates`); all others in its code are calls. Without calls the code needs as much room
as it has words on the stack at once (`room_of_peak`).
-/

namespace Jack

open Machine Syntax Compiler

/-- The instruction works on top of the stack, or says where elements are read. -/
inductive Instruction.Calculates : Instruction → Prop
  | push (segment : Segment) (index : Nat) : Calculates (.push segment index)
  | pointer : Calculates (.pop .pointer 1)
  | command {action : Command} (h : action ≠ .ret) : Calculates (.command action)

/-- The instruction calculates, if need be by a routine that works on its arguments alone. -/
inductive Instruction.Reckons : Instruction → Prop
  | calculate {i : Instruction} (h : i.Calculates) : Reckons i
  | routine {r : Routine} (h : r ∈ [.mathMultiply, .mathDivide]) : Reckons r.call

namespace Machine

variable {m m' : Machine} {base low depth depth' : Nat} {i : Instruction} {r : Option Word}

theorem straight_of_calculates (h : i.Calculates) : Straight i := by
  cases h with
  | push => trivial
  | pointer => exact Segment.noConfusion
  | command h => exact h

theorem worksTo_of_calculates (hc : i.Calculates) (hpos : 2 < base) (hb : base ≤ low)
    (hsp : m.word 0 = saturate (low + depth)) (hhigh : low + depth ≤ heapBase)
    (hd : i.settle depth = some depth') (hrun : (perform i).run m = .ok r m') :
    WorksTo base (low + depth') m m' := by
  cases hc with
  | push segment index =>
    obtain rfl : depth + 1 = depth' := by simpa [Instruction.settle] using hd
    exact worksTo_of_push hpos hb hsp hhigh hrun
  | pointer =>
    simp only [heapBase] at hhigh
    obtain ⟨hdepth, rfl⟩ : 1 ≤ depth ∧ depth - 1 = depth' := by simpa [Instruction.settle] using hd
    obtain ⟨k, rfl⟩ := Nat.exists_eq_add_of_le' hdepth
    have hsp' : m.word 0 = saturate (low + k + 1) := hsp
    have hlt : low + k < 32767 := by omega
    obtain ⟨value, m₁, hpop, hrest⟩ := exists_of_run_bind hrun
    obtain ⟨u, m₂, hwrite, hpure⟩ := exists_of_run_bind hrest
    rw [run_pop_of_pushed hsp' hlt (by omega)] at hpop
    cases hpop
    rw [run_writeElement (run_locate_of_fixed rfl) _ (by decide)] at hwrite
    cases hwrite
    cases hpure
    rw [Nat.add_sub_cancel]
    refine ⟨(Works.lowered base m _).trans (.put _ _ ⟨by decide, .inl (by decide)⟩ (by decide)), ?_,
      Nat.le_of_lt hlt⟩
    rw [word_put_of_lt _ _ (by decide), if_neg (by decide), word_lowered, if_pos rfl]
  | command ha => exact worksTo_of_command hpos hb hsp hhigh ha hd hrun

theorem contained_of_reckons (h : i.Reckons) : Contained (perform i) := by
  cases h with
  | calculate h => exact contained_perform (straight_of_calculates h)
  | routine _ => exact contained_perform_call (builtin?_text _)

theorem worksTo_of_reckons (hc : i.Reckons) (hpos : 2 < base) (hb : base ≤ low)
    (hsp : m.word 0 = saturate (low + depth)) (hhigh : low + depth ≤ heapBase)
    (hd : i.settle depth = some depth') (hrun : (perform i).run m = .ok r m') :
    WorksTo base (low + depth') m m' := by
  cases hc with
  | calculate h => exact worksTo_of_calculates h hpos hb hsp hhigh hd hrun
  | @routine routine h =>
    obtain ⟨hdepth, rfl⟩ : routine.arity ≤ depth ∧ depth - routine.arity + 1 = depth' := by
      simpa [Instruction.settle, Routine.call] using hd
    obtain ⟨k, rfl⟩ := Nat.exists_eq_add_of_le' hdepth
    have hsp' : m.word 0 = saturate (low + k + routine.arity) := by rw [hsp, Nat.add_assoc]
    have hhigh' : low + k + routine.arity ≤ heapBase := by omega
    rw [Nat.add_sub_cancel]
    refine worksTo_of_routine hpos (Nat.le_add_right_of_le hb) hsp' hhigh' (builtin?_text routine)
      ?_ ?_ hrun
    all_goals
      rintro rfl
      simp at h

/-! ## Single instructions -/

section Walks

variable {sp : Nat}

theorem exists_walk_push {segment : Segment} {index : Nat} {value : Word}
    (hsp : m.word 0 = saturate sp) (hle : sp ≤ heapBase)
    (hi : m.instruction? = some (.push segment index))
    (hread : (readElement segment index).run m.next = .ok value m.next) :
    ∃ m', Walk 1 m m' ∧ m' = m.next.pushed sp value := by
  simp only [heapBase] at hle
  exact ⟨_, .single (by simp [hi]) (run_step_push hi hread hsp (by omega)), rfl⟩

/-- Who has pushed an element has read it. -/
theorem of_walk_push {segment : Segment} {index : Nat} (hsp : m.word 0 = saturate sp)
    (hle : sp ≤ heapBase) (hi : m.instruction? = some (.push segment index)) (hw : Walk 1 m m') :
    ∃ value, (readElement segment index).run m.next = .ok value m.next ∧
      m' = m.next.pushed sp value := by
  simp only [heapBase] at hle
  cases hw with
  | step _ hstep hrefl =>
    cases hrefl
    rw [run_step hi] at hstep
    obtain ⟨value, m₁, hread, hrest⟩ := exists_of_run_bind hstep
    obtain ⟨u, m₂, hpush, hpure⟩ := exists_of_run_bind hrest
    obtain rfl := (silent_readElement segment index).eq_of_run hread
    rw [run_push_of_room (m := m.next) value hsp (by omega)] at hpush
    cases hpush
    cases hpure
    exact ⟨value, hread, rfl⟩

theorem exists_walk_add (hsp : m.word 0 = saturate (sp + 2)) (hpos : 0 < sp) (hle : sp ≤ heapBase)
    (hi : m.instruction? = some (.command .add)) :
    ∃ m', Walk 1 m m' ∧ m' = m.next.pushed sp (m.word sp + m.word (sp + 1)) := by
  simp only [heapBase] at hle
  refine ⟨_, .single (by simp [hi]) ?_, rfl⟩
  rw [run_step hi]
  simp only [perform, runCommand, run_bind, run_binary (m := m.next) (· + ·) hsp (by omega) hpos,
    run_pure]
  rfl

end Walks

/-! ## The room that code takes -/

/-- The most words there are on the stack while the code runs. -/
def peak (depth : Nat) : List Instruction → Nat
  | [] => depth
  | i :: code => max depth (peak (i.heightAfter depth) code)

variable {sp : Nat} {code : List Instruction}

/-- Where the stack has room for the most words that the code has on it, it stays below the heap. -/
theorem room_of_peak (hc : ∀ i ∈ code, i.Reckons) (hd : settle depth code = some depth')
    (hplaced : Placed m.program m.pc code) (hsp : m.word 0 = saturate (sp + depth)) (hpos : 2 < sp)
    (hle : sp + peak depth code ≤ heapBase) : Room code.length m := by
  induction code generalizing m depth with
  | nil =>
    intro k hk m' hw
    obtain rfl : k = 0 := Nat.le_zero.1 hk
    cases hw
    exact ⟨sp + depth, hle, hsp⟩
  | cons i code ih =>
    rw [List.forall_mem_cons] at hc
    obtain ⟨depth₁, hdepth, hrest⟩ := Option.bind_eq_some_iff.1 ((settle_cons ..).symm.trans hd)
    obtain ⟨hi, hplaced⟩ := hplaced
    rw [peak, (Instruction.heightAfter_of_settle hdepth).2] at hle
    intro k hk m' hw
    cases hw with
    | refl => exact ⟨sp + depth, by simp only [heapBase] at hle; omega, hsp⟩
    | @step n _ m₁ _ hret hstep hw =>
      rw [run_step hi] at hstep
      have hkept := (contained_of_reckons hc.1).kept hstep
      have hnext : m.next.word 0 = saturate (sp + depth) := hsp
      have hworks := worksTo_of_reckons hc.1 hpos (Nat.le_refl sp) hnext (by omega) hdepth hstep
      have hpc : m₁.pc = m.pc + 1 := hkept.pc
      have hprogram : m₁.program = m.program := hkept.program
      rw [← hprogram, ← hpc] at hplaced
      exact ih hc.2 hrest hplaced hworks.sp_eq (by omega) n (Nat.le_of_succ_le_succ hk) m' hw

end Machine

/-! ## The code of an expression -/

namespace Syntax

open Instruction (Calculates Reckons)

variable {b : Bindings}

/-- In the code of an expression there are calculations and calls. -/
theorem Computes.calculates {kinds : List Token.Kind} {i : Instruction} (h : Computes b kinds i) :
    i.Calculates ∨ ∃ name count, i = .call name count := by
  cases h with
  | this =>
    refine .inl ?_
    unfold Bindings.this
    split <;> exact .push _ _
  | pointer => exact .inl .pointer
  | command h => exact .inl (.command h)
  | routine r => exact .inr ⟨_, _, rfl⟩
  | call => exact .inr ⟨_, _, rfl⟩
  | _ => exact .inl (.push _ _)

theorem reckons_push (segment : Segment) (index : Nat) : (Instruction.push segment index).Reckons :=
  .calculate (.push segment index)

theorem reckons_this (b : Bindings) : b.this.Reckons := by
  unfold Bindings.this
  split <;> exact reckons_push _ _

theorem reckons_read {name : String} : ∀ i ∈ b.read name, i.Reckons := by
  intro i hi
  simp only [Bindings.read, Option.mem_toList, Option.map_eq_some_iff] at hi
  obtain ⟨s, -, rfl⟩ := hi
  exact reckons_push _ _

theorem reckons_operator (op : Operator) : op.instruction.Reckons := by
  cases op with
  | multiply | divide => exact .routine (by decide)
  | _ => exact .calculate (.command (by decide))

theorem reckons_unary (op : UnaryOperator) : op.instruction.Reckons := by
  cases op <;> exact .calculate (.command (by decide))

theorem reckons_loadElement : ∀ i ∈ loadElement, i.Reckons := by
  simp only [loadElement, List.forall_mem_cons]
  exact ⟨.calculate .pointer, reckons_push _ _, by simp⟩

mutual

theorem Term.reckons : ∀ t : Term, t.Plain → ∀ i ∈ t.code b, i.Reckons
  | .integer _, _ | .false, _ | .null, _ => List.forall_mem_singleton.2 (reckons_push _ _)
  | .true, _ => List.forall_mem_cons.2
      ⟨reckons_push _ _, List.forall_mem_singleton.2 (reckons_unary .negate)⟩
  | .this, _ => List.forall_mem_singleton.2 (reckons_this b)
  | .group e, h => e.reckons h
  | .unary op t, h => List.forall_mem_append.2
      ⟨t.reckons h, List.forall_mem_singleton.2 (reckons_unary op)⟩
  | .variable _, _ => reckons_read
  | .element array index, h => by
    simp only [Term.code, List.forall_mem_append]
    exact ⟨⟨⟨reckons_read, index.reckons h⟩, List.forall_mem_singleton.2 (reckons_operator .add)⟩,
      reckons_loadElement⟩

theorem Expression.reckons : ∀ e : Expression, e.Plain → ∀ i ∈ e.code b, i.Reckons
  | .term t, h => t.reckons h
  | .operation left op right, h => by
    simp only [Expression.code, List.forall_mem_append]
    exact ⟨⟨left.reckons h.1, right.reckons h.2⟩,
      List.forall_mem_singleton.2 (reckons_operator op)⟩

end

end Syntax

end Jack

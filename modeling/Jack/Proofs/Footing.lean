import Jack.Proofs.CallingConvention
import Jack.Proofs.Untouched

/-!
# The footing of a run

A run begins above the cells where the stack begins, and as long as nothing is stored below the heap it
stays there (`Orderly.footed`). This is so in later runs too, for whatever has become of the one
before, its stack does not end below its beginning (`Level.exists_stack`). If no machine ever stores
below the heap, all that are running are of this kind (`Running.orderly`).
-/

namespace Jack.Machine

variable {code : List Instruction} {before m₀ m m' : Machine} {bottom inner : List Frame}
  {base sp lcl arg depth : Nat}

/-- The machine is in the middle of a run, and has been modest since it was loaded. Where a run is cut
off, or has come to its end with a value or a fault, the next one may begin. -/
inductive Orderly (m₀ : Machine) : Machine → Prop
  | first {entry : String} {m : Machine} (henter : (enterFunction entry 0 none).run m₀ = .ok () m) :
    Orderly m₀ m
  | step {m m' : Machine} (h : Orderly m₀ m) (hm : m.Modest) (hstep : step.run m = .ok none m') :
    Orderly m₀ m'
  | again {entry : String} {m m' : Machine} (h : Orderly m₀ m)
    (henter : (enterFunction entry 0 none).run m = .ok () m') : Orderly m₀ m'
  | next {entry : String} {m m' : Machine} (h : Orderly m₀ m) (hm : m.Modest)
    (henter : (enterFunction entry 0 none).run (after Machine.step m) = .ok () m') : Orderly m₀ m'

/-! ## The end of the stack -/

/-- Where a step fails that would enter a function nothing has happened yet. -/
theorem eq_next_of_call_error {name : String} {count : Nat} {f : Fault}
    (hb : builtin? name count = none) (hrun : (perform (.call name count)).run m = .error f m') :
    m' = m := by
  rw [perform, run_bind] at hrun
  obtain ⟨f', -, hf⟩ | henter := run_call_of_none hb m
  · simp only [hf, EStateM.Result.error.injEq] at hrun
    exact hrun.2.symm
  · rw [henter] at hrun
    cases hfunction : m.program.functions[name]? with
    | none =>
      simp only [run_enterFunction_of_none _ _ hfunction, EStateM.Result.error.injEq] at hrun
      exact hrun.2.symm
    | some entry => simp [run_enterFunction _ _ hfunction] at hrun

section Level

variable (h : Level code before bottom base inner sp lcl arg depth m) (hcode : Settled code)
  (hbase : 2 < base) (hbottom : bottom ≠ []) (hm : m.Modest)

include h hcode hbase hbottom hm

theorem Level.exists_stack_of_error {f : Fault} (hrun : Machine.step.run m = .error f m') :
    ∃ low, base ≤ low ∧ low ≤ 32767 ∧ m'.word 0 = saturate low := by
  have hhigh := h.le_of_modest hm
  have hspans := h.spans hbase hhigh
  have hb := hspans.base_le
  have ha := hspans.arg_le
  have hle := h.le
  have hsame : ∀ pc, m' = { m with pc } → ∃ low, base ≤ low ∧ low ≤ 32767 ∧ m'.word 0 = saturate low := by
    rintro pc rfl
    exact ⟨sp, by omega, h.high, h.sp_eq⟩
  cases hi : m.instruction? with
  | none =>
    rw [run_step_of_end hi] at hrun
    cases hrun
    exact hsame _ rfl
  | some i =>
    have hret : i ≠ .command .ret := by
      rintro rfl
      simp only [heapBase] at hhigh
      obtain ⟨k, rfl⟩ : ∃ k, sp = k + 1 := ⟨sp - 1, by omega⟩
      obtain ⟨g, gs, hframes⟩ := List.exists_cons_of_ne_nil
        (show m.next.frames ≠ [] from h.frames ▸ List.append_ne_nil_of_right_ne_nil inner hbottom)
      have hleave := run_leaveFunction hspans.sp_eq (by omega) (by omega) hspans.arg_eq (by omega)
        hframes
      rw [run_step hi, perform, runCommand, hleave] at hrun
      simp at hrun
    by_cases hcall : ∃ name count, i = .call name count ∧ builtin? name count = none
    · obtain ⟨name, count, rfl, hnone⟩ := hcall
      exact hsame _ (eq_next_of_call_error hnone ((run_step hi).symm.trans hrun))
    · have hbuiltin : ∀ name count, i = .call name count → (builtin? name count).isSome := by
        intro name count heq
        cases hnone : builtin? name count with
        | none => exact absurd ⟨name, count, heq, hnone⟩ hcall
        | some routine => rfl
      have hholds : Holds 1 (m.word 1) lcl (after Machine.step m) :=
        h.holds hcode hbase hhigh (by decide) (by omega) hm.stores hi hret hbuiltin
          (i.avoids_of_lt (by decide) (by omega))
      rw [after, hrun] at hholds
      obtain ⟨low, hlow, hle', hword⟩ := hholds.stack
      exact ⟨low, by omega, hle', hword⟩

/-- Behind a step, even one that fails, the stack ends no lower than the activation began. -/
theorem Level.exists_stack
    (hplaced : ∀ segment index, .pop segment index ∈ code → WellPlaced segment index) :
    ∃ low, base ≤ low ∧ low ≤ 32767 ∧ (after Machine.step m).word 0 = saturate low := by
  have hhigh := h.le_of_modest hm
  have hlow := h.nested.le
  have ha := h.arg_le
  have hle := h.le
  simp only [heapBase] at hhigh
  rw [after]
  cases hrun : Machine.step.run m with
  | ok r m' =>
    obtain ⟨-, inner', sp', lcl', arg', depth', h'⟩ | ⟨f, fs, -, -, hleft⟩ :=
      h.step hcode hbase (h.le_of_modest hm) hplaced hm.stores hrun
    · have := h'.nested.le
      have := h'.arg_le
      have := h'.le
      exact ⟨sp', by omega, h'.high, h'.sp_eq⟩
    · exact ⟨base + 1, Nat.le_succ base, by omega, hleft.sp_eq⟩
  | error f m' => exact h.exists_stack_of_error hcode hbase hbottom hm hrun

end Level

/-! ## Runs -/

/-- The machine is in an activation that was begun from outside, above the beginning of the stack. -/
def Footed (code : List Instruction) (m : Machine) : Prop :=
  ∃ before f fs base, f.returnAddress = none ∧ stackBase ≤ base ∧ Inside code before (f :: fs) base m

theorem footed_of_enterFunction {name : String} (hcode : Settled code)
    (hprogram : m.program = .ofInstructions code) (hheap : heapBase ≤ m.heapEnd)
    (hlow : stackBase ≤ sp) (hhigh : sp ≤ 32767) (hsp : m.word 0 = saturate sp)
    (henter : (enterFunction name 0 none).run m = .ok () m') : Footed code m' := by
  have hnested : Nested code sp (sp - 0) [] := rfl
  exact ⟨m, m.frame none, m.frames, sp, rfl, hlow, inside_of_enterFunction hcode hprogram hheap
    (fun _ _ _ => rfl) rfl hnested hsp (Nat.zero_le sp) hhigh henter⟩

theorem Orderly.footed (hcode : Settled code)
    (hplaced : ∀ segment index, .pop segment index ∈ code → WellPlaced segment index)
    (h : Orderly (ofProgram (.ofInstructions code)) m) : Footed code m := by
  induction h with
  | first henter =>
    exact footed_of_enterFunction hcode rfl (Nat.le_refl _) (Nat.le_refl _) (by decide)
      (word_ofProgram 0) henter
  | step _ hm hstep ih =>
    obtain ⟨before, f, fs, base, hf, hbase, inner, sp, lcl, arg, depth, hlevel⟩ := ih
    have hlow : 2 < base := Nat.lt_of_lt_of_le (by decide) hbase
    obtain ⟨-, hinside⟩ | ⟨g, gs, hbottom, -, hleft⟩ :=
      hlevel.step hcode hlow (hlevel.le_of_modest hm) hplaced hm.stores hstep
    · exact ⟨before, f, fs, base, hf, hbase, hinside⟩
    · obtain ⟨rfl, -⟩ := List.cons.inj hbottom
      have hvalue := hleft.value
      simp [hf] at hvalue
  | again _ henter ih =>
    obtain ⟨before, f, fs, base, -, hbase, inner, sp, lcl, arg, depth, hlevel⟩ := ih
    have := hlevel.nested.le
    have := hlevel.arg_le
    have := hlevel.le
    exact footed_of_enterFunction hcode hlevel.program hlevel.heap (by omega) hlevel.high hlevel.sp_eq
      henter
  | @next entry m m' _ hm henter ih =>
    obtain ⟨before, f, fs, base, -, hbase, inner, sp, lcl, arg, depth, hlevel⟩ := ih
    have hlow : 2 < base := Nat.lt_of_lt_of_le (by decide) hbase
    obtain ⟨low, hle, hhigh, hsp⟩ := hlevel.exists_stack hcode hlow (by simp) hm hplaced
    have hgrown := grown_step m
    exact footed_of_enterFunction hcode (hgrown.program.trans hlevel.program)
      (Nat.le_trans hlevel.heap hgrown.heapEnd) (by omega) hhigh hsp henter

/-! ## Requests -/

/-- Nothing is running: the machine has just been loaded, or a run has left it there. -/
def Rests (m₀ m : Machine) : Prop :=
  m = m₀ ∨ Orderly m₀ m ∨ ∃ last : Machine, Orderly m₀ last ∧ last.Modest ∧ m = after step last

theorem Rests.enter {entry : String} (h : Rests m₀ m)
    (henter : (enterFunction entry 0 none).run m = .ok () m') : Orderly m₀ m' := by
  obtain rfl | h | ⟨last, hlast, hmodest, rfl⟩ := h
  · exact .first henter
  · exact h.again henter
  · exact hlast.next hmodest henter

section Requests

variable (hmodest : ∀ m, Running m₀ m → m.Modest)

include hmodest

theorem Orderly.rests_of_steps (h : Orderly m₀ m) (hr : Running m₀ m) (limit : Nat) :
    Rests m₀ (after (steps limit) m) := by
  induction limit generalizing m with
  | zero => exact .inr (.inl h)
  | succ limit ih =>
    have hlast : Rests m₀ (after Machine.step m) := .inr (.inr ⟨m, h, hmodest m hr, rfl⟩)
    simp only [after, steps, run_bind] at hlast ⊢
    cases hstep : Machine.step.run m with
    | error f m₁ => rwa [hstep] at hlast
    | ok r m₁ =>
      cases r with
      | none => exact ih (h.step (hmodest m hr) hstep) (hr.step hstep)
      | some value => rwa [hstep] at hlast

theorem Served.rests (h : Served m₀ m) : Rests m₀ m := by
  induction h with
  | loaded => exact .inl rfl
  | @request m h entry ih =>
    simp only [after, run, run_bind]
    cases hf : m.program.functions[entry]? with
    | none =>
      rw [run_enterFunction_of_none 0 none hf]
      exact ih
    | some pc =>
      have henter := run_enterFunction (m := m) 0 none hf
      rw [henter]
      exact (ih.enter henter).rests_of_steps hmodest (.enter h henter) stepLimit

/-- Where no running machine stores below the heap, every running machine is orderly. -/
theorem Running.orderly (h : Running m₀ m) : Orderly m₀ m := by
  induction h with
  | enter h henter => exact (h.rests hmodest).enter henter
  | @step m m' h hstep ih => exact ih.step (hmodest m h) hstep

end Requests

end Jack.Machine

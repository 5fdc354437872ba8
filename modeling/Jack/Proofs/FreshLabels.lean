import Jack.Proofs.Keywords
import Jack.Proofs.Reference

/-!
# Labels and jumps

While a class is compiled, the labels that are still to be written down wait on the agenda. Only the
beginning of a statement makes new ones (`makes_of_step`), with a number that none has had
before, so no label is ever written twice, however the compilation ends (`nodup_trace`). If it ends
well, every label has one jump, in its own function, and there are as many as the source has
statements (`labels_match`).
-/

namespace Jack

namespace Compiler

open Goal State Syntax
open Token (Kind)

variable {s s' : State} {agenda goals : List Goal}

/-! ## Labels on the agenda -/

/-- The labels that a goal writes. -/
def Goal.labels : Goal → List String
  | .emit code => labelsOf code
  | _ => []

/-- The labels that wait on the agenda. -/
def waiting (agenda : List Goal) : List String := agenda.flatMap Goal.labels

theorem waiting_cons (g : Goal) (agenda : List Goal) :
    waiting (g :: agenda) = g.labels ++ waiting agenda := List.flatMap_cons

theorem waiting_append (agenda agenda' : List Goal) :
    waiting (agenda ++ agenda') = waiting agenda ++ waiting agenda' := List.flatMap_append

/-- A step takes the next numbers for the labels that it puts on the agenda, and no others. -/
def Makes (s : State) (goals : List Goal) (s' : State) : Prop :=
  ∃ ifs whiles, waiting goals = labelsIn s.env.ifCount ifs s.env.whileCount whiles ∧
    s'.env.ifCount = s.env.ifCount + ifs ∧ s'.env.whileCount = s.env.whileCount + whiles

theorem waiting_of_unlabelled (h : Unlabelled goals) : waiting goals = [] := by
  refine List.flatMap_eq_nil_iff.2 fun g hg => ?_
  cases g with
  | emit code =>
    refine List.filterMap_eq_nil_iff.2 fun i hi => ?_
    cases i with
    | label name => exact absurd hi (h code hg name)
    | _ => rfl
  | _ => rfl

theorem makes_of_step {g : Goal} (h : step s g = .ok (goals, s')) : Makes s goals s' := by
  cases turns_of_step h with
  | kept _ hl => exact ⟨0, 0, waiting_of_unlabelled hl, rfl, rfl⟩
  | taken ht hd ha =>
    rw [Makes, ← env_of_drop hd]
    cases ha with
    | same hl | beginClass _ hl | beginSubroutine _ _ hl =>
      exact ⟨0, 0, waiting_of_unlabelled hl, rfl, rfl⟩
    | define _ kind _ hl =>
      refine ⟨0, 0, waiting_of_unlabelled hl, ?_, ?_⟩ <;> cases kind <;> rfl
    | ifStatement => exact ⟨1, 0, rfl, rfl, rfl⟩
    | whileStatement => exact ⟨0, 1, rfl, rfl, rfl⟩

/-- No label is written that has been made before, except what waits on the agenda. -/
theorem nodup_trace (agenda : List Goal) (s : State) (hnodup : (waiting agenda).Nodup)
    (hmade : ∀ name ∈ waiting agenda, Numbered 0 s.env.ifCount 0 s.env.whileCount name) :
    (labelsOf (trace agenda s).1).Nodup ∧ ∀ name ∈ labelsOf (trace agenda s).1,
      name ∈ waiting agenda ∨ ¬ Numbered 0 s.env.ifCount 0 s.env.whileCount name := by
  -- What waits has been made already, and what a step makes has numbers that none has had.
  fun_induction trace agenda s with
  | case1 s => exact ⟨List.nodup_nil, by simp [labelsOf]⟩
  | case2 code agenda s later result h ih =>
    rw [waiting_cons, Goal.labels, List.nodup_append] at hnodup
    rw [waiting_cons, Goal.labels, List.forall_mem_append] at hmade
    obtain ⟨hlater, hnew⟩ := ih hnodup.2.1 hmade.2
    rw [h] at hlater hnew
    simp only [labelsOf_append, List.nodup_append, waiting_cons, Goal.labels, List.mem_append]
    refine ⟨⟨hnodup.1, hlater, fun name hn name' hn' heq => ?_⟩, fun name hn =>
      hn.elim (fun hn => .inl (.inl hn)) fun hn => (hnew name hn).imp .inr id⟩
    subst heq
    rcases hnew name hn' with hw | hw
    · exact hnodup.2.2 name hn name hw rfl
    · exact hw (hmade.1 name hn)
  | case3 g agenda s hg goals s' h ih =>
    obtain ⟨ifs, whiles, hw, hifs, hwhiles⟩ := makes_of_step h
    have hempty : g.labels = [] := by
      cases g with
      | emit code => exact absurd rfl (hg code)
      | _ => rfl
    rw [waiting_cons, hempty, List.nil_append] at hnodup hmade ⊢
    have hfresh : ∀ name ∈ waiting goals, ¬ Numbered 0 s.env.ifCount 0 s.env.whileCount name := by
      rintro name hn ⟨sort, n, rfl, hlt⟩
      rw [hw, mem_labelsIn] at hn
      have hge := hn.number_ge
      cases sort <;> simp only at hlt hge <;> omega
    have hmore : ∀ name, Numbered 0 s.env.ifCount 0 s.env.whileCount name →
        Numbered 0 s'.env.ifCount 0 s'.env.whileCount name := fun name hn =>
      hn.mono (Nat.le_refl 0) (by omega) (Nat.le_refl 0) (by omega)
    have hmade' : ∀ name ∈ waiting goals, Numbered 0 s'.env.ifCount 0 s'.env.whileCount name := by
      intro name hn
      rw [hw, mem_labelsIn] at hn
      exact hn.mono (Nat.zero_le _) (by omega) (Nat.zero_le _) (by omega)
    rw [waiting_append, List.nodup_append, List.forall_mem_append] at ih
    obtain ⟨hnodup', hnew⟩ := ih
      ⟨hw ▸ nodup_labelsIn, hnodup, fun name hn name' hn' heq =>
        hfresh name hn (heq ▸ hmade name' hn')⟩
      ⟨hmade', fun name hn => hmore name (hmade name hn)⟩
    refine ⟨hnodup', fun name hn => ?_⟩
    rcases hnew name hn with hwaits | hnew
    · rcases List.mem_append.1 hwaits with hwaits | hwaits
      · exact .inr (hfresh name hwaits)
      · exact .inl hwaits
    · exact .inr fun hmade' => hnew (hmore name hmade')
  | case4 g agenda s hg e h => exact ⟨List.nodup_nil, by simp [labelsOf]⟩

end Compiler

open Compiler Syntax Machine

/-! ## What reaches a sink -/

/-- A collector takes the first instructions, as many as it has room for. -/
theorem exists_take_of_writeAll (sink : Collector) (code : List Instruction) :
    ∃ n, (Sink.writeAll sink code).1.items.toList = sink.items.toList ++ code.take n := by
  induction code generalizing sink with
  | nil => exact ⟨0, by simp [Sink.writeAll]⟩
  | cons i code ih =>
    unfold Sink.writeAll
    by_cases hfull : sink.capacity.any (· ≤ sink.items.size)
    · exact ⟨0, by simp [Sink.write, hfull]⟩
    · obtain ⟨n, hn⟩ := ih { sink with items := sink.items.push i }
      refine ⟨n + 1, ?_⟩
      simp only [Sink.write, hfull, Bool.false_eq_true, if_false, hn, Array.toList_push,
        List.take_succ_cons, List.append_assoc, List.singleton_append]

/-- What has been written when the compilation ends is the beginning of what it would write. -/
theorem exists_take_of_compile (source : Source) (capacity : Option Nat) :
    ∃ n, (compile source ({ capacity } : Collector)).2.items.toList =
      (Compiler.trace [.classDeclaration] { input := .ofSource source }).1.take n := by
  have hrun := Compiler.run_eq_writeAll (σ := Collector) (fun _ _ => rfl) [.classDeclaration]
    { input := .ofSource source } { capacity }
  obtain ⟨n, hn⟩ := exists_take_of_writeAll { capacity }
    (Compiler.trace [.classDeclaration] { input := .ofSource source }).1
  unfold compile Compiler.compileTokens
  split
  · exact ⟨0, rfl⟩
  · refine ⟨n, ?_⟩
    rw [hrun]
    rcases hwrite : Sink.writeAll ({ capacity } : Collector)
      (Compiler.trace [.classDeclaration] { input := .ofSource source }).1 with ⟨sink, _ | reason⟩ <;>
    · rw [hwrite] at hn
      simpa using hn

/-! ## The labels of a source -/

theorem nodup_of_compile (source : Source) (capacity : Option Nat) :
    (labelsOf (compile source ({ capacity } : Collector)).2.items.toList).Nodup := by
  obtain ⟨n, hn⟩ := exists_take_of_compile source capacity
  have hnodup := (nodup_trace [.classDeclaration] { input := .ofSource source } List.nodup_nil
    fun name hname => absurd hname List.not_mem_nil).1
  rw [hn]
  exact hnodup.sublist ((List.take_sublist _ _).filterMap _)

/-- However a compilation ends, no label has been written twice. If it ends well, there is one jump
to each label, in its own function, and no other jump; and the labels are those of as many statements
as the source has keywords `if` and `while`, numbered from zero on. -/
theorem labels_match (source : Source) :
    (∀ capacity, (labelsOf (compile source ({ capacity } : Collector)).2.items.toList).Nodup) ∧
    ∀ code, compileClass source = .ok code →
      (labelsOf code).Nodup ∧ (targetsOf code).Perm (labelsOf code) ∧
      (labelsOf code).Perm (labelsIn 0 (source.kinds.countP (· = .keyword .ifKeyword))
        0 (source.kinds.countP (· = .keyword .whileKeyword))) ∧
      ∃ fs : List Definition, code = codeOf fs ∧
        ∀ f ∈ fs, f.Whole ∧ (targetsOf f.body).Perm (labelsOf f.body) := by
  refine ⟨nodup_of_compile source, fun code hcode => ?_⟩
  obtain ⟨-, k, htokens, -, rfl⟩ := exists_tree_of_compileClass hcode
  obtain ⟨hifs, hwhiles⟩ := k.controls
  rw [← htokens, hifs, hwhiles]
  refine ⟨k.labelled.nodup, k.labelled.perm, k.labelled.labels, k.definitions,
    k.codeOf_definitions.symm, fun f hf => ⟨k.whole f hf, ?_⟩⟩
  obtain ⟨d, -, i, w, rfl⟩ := exists_subroutine_of_mem hf
  exact (d.labelled k i w).perm

def waitSource : String :=
  "class A \x7b function void wait() \x7b while (true) \x7b if (false) \x7b return; \x7d \x7d " ++
    "return; \x7d \x7d"

def waitClass : ClassDeclaration where
  name := "A"
  declarations := []
  subroutines := [{
    kind := .function
    returnType := none
    name := "wait"
    parameters := []
    locals := []
    body := .cons (.loop (.term .true) (.cons (.conditional (.term .false)
      (.cons (.giveBack none) .nil)) .nil)) (.cons (.giveBack none) .nil) }]

theorem compileClass_wait : compileClass (.ofString waitSource) = .ok waitClass.code :=
  compileClass_of_tree (by decide +kernel) (by decide +kernel) (by decide)

/-- A loop and a branch in it have four labels, and a jump to each of them. -/
theorem labels_match_wait : (labelsOf waitClass.code).Nodup ∧
    (targetsOf waitClass.code).Perm (labelsOf waitClass.code) ∧
    labelsOf waitClass.code = ["WHILE_EXP0", "IF_FALSE0", "IF_END0", "WHILE_END0"] :=
  have h := (labels_match (.ofString waitSource)).2 _ compileClass_wait
  ⟨h.1, h.2.1, by decide⟩

end Jack

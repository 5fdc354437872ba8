import Jack.Proofs.Vocabulary
import Jack.Text.Decimal

/-!
# Labels of statements

Every `if` and every `while` of a class has a number of its own among those of its sort, and labels
that tell the sort and the number. The labels of a block are just those of its statements, and so are
those that it jumps to (`Block.labelled`); hence no label stands in it twice (`Labelled.nodup`).
-/

namespace Jack

open Syntax Compiler

/-! ## Names of labels -/

inductive LabelSort
  | otherwise | branchDone | again | loopDone
  deriving DecidableEq, Repr

def LabelSort.label (n : Nat) : LabelSort → String
  | otherwise => (BranchLabels.numbered n).otherwise
  | branchDone => (BranchLabels.numbered n).done
  | again => (LoopLabels.numbered n).again
  | loopDone => (LoopLabels.numbered n).done

theorem repr_inj {n k : Nat} (h : n.repr = k.repr) : n = k := by
  have hn := Text.decimalBelow?_repr (show n < n + k + 1 by omega)
  rw [h, Text.decimalBelow?_repr (by omega), Option.some.injEq] at hn
  exact hn.symm

theorem LabelSort.label_inj {s s' : LabelSort} {n k : Nat} (h : s.label n = s'.label k) :
    s = s' ∧ n = k := by
  rw [← String.toList_inj] at h
  cases s <;> cases s' <;>
    simp only [label, BranchLabels.numbered, LoopLabels.numbered, String.toList_append] at h <;>
    simp at h
  all_goals exact ⟨rfl, repr_inj (String.toList_inj.1 (by simpa [Text.toList_repr] using h))⟩

namespace Instruction

/-- The label that stands here. -/
def label? : Instruction → Option String
  | .label name => some name
  | _ => none

/-- The label that the instruction jumps to. -/
def target? : Instruction → Option String
  | .goto name | .ifGoto name => some name
  | _ => none

end Instruction

/-- The labels in code. -/
def labelsOf (code : List Instruction) : List String := code.filterMap Instruction.label?

/-- The labels that code jumps to. -/
def targetsOf (code : List Instruction) : List String := code.filterMap Instruction.target?

theorem labelsOf_append (code code' : List Instruction) :
    labelsOf (code ++ code') = labelsOf code ++ labelsOf code' := List.filterMap_append ..

theorem targetsOf_append (code code' : List Instruction) :
    targetsOf (code ++ code') = targetsOf code ++ targetsOf code' := List.filterMap_append ..

/-- There is neither a label nor a jump in the code. -/
def Bare (code : List Instruction) : Prop := ∀ i ∈ code, i.label? = none ∧ i.target? = none

theorem Bare.labelsOf {code : List Instruction} (h : Bare code) : labelsOf code = [] :=
  List.filterMap_eq_nil_iff.2 fun i hi => (h i hi).1

theorem Bare.targetsOf {code : List Instruction} (h : Bare code) : targetsOf code = [] :=
  List.filterMap_eq_nil_iff.2 fun i hi => (h i hi).2

theorem bare_append {code code' : List Instruction} : Bare (code ++ code') ↔ Bare code ∧ Bare code' :=
  List.forall_mem_append

/-- The label of an `if` or a `while` with a number in the range of its sort. -/
def Numbered (i i' w w' : Nat) (name : String) : Prop :=
  ∃ (s : LabelSort) (n : Nat), name = s.label n ∧
    match s with
    | .otherwise | .branchDone => i ≤ n ∧ n < i'
    | .again | .loopDone => w ≤ n ∧ n < w'

theorem Numbered.mono {i i' w w' j j' v v' : Nat} {name : String} (h : Numbered i i' w w' name)
    (hi : j ≤ i) (hi' : i' ≤ j') (hw : v ≤ w) (hw' : w' ≤ v') : Numbered j j' v v' name := by
  obtain ⟨s, n, rfl, h⟩ := h
  refine ⟨s, n, rfl, ?_⟩
  cases s <;> simp only at h ⊢ <;> omega

/-- The labels of some `if` and `while` statements, numbered from the first ones on. -/
def labelsIn (i ifs w whiles : Nat) : List String :=
  (List.range' i ifs).flatMap (fun n => [LabelSort.otherwise.label n, LabelSort.branchDone.label n]) ++
    (List.range' w whiles).flatMap fun n => [LabelSort.again.label n, LabelSort.loopDone.label n]

section LabelsIn

variable {i ifs ifs' w whiles whiles' : Nat} {name : String}

theorem labelsIn_append :
    (labelsIn i (ifs + ifs') w (whiles + whiles')).Perm
      (labelsIn i ifs w whiles ++ labelsIn (i + ifs) ifs' (w + whiles) whiles') := by
  refine List.perm_iff_count.2 fun name => ?_
  simp only [labelsIn, ← List.range'_append_1, List.flatMap_append, List.count_append]
  omega

theorem labelsIn_if : labelsIn i (ifs + 1) w whiles =
    LabelSort.otherwise.label i :: LabelSort.branchDone.label i :: labelsIn (i + 1) ifs w whiles := by
  simp only [labelsIn, List.range'_succ, List.flatMap_cons, List.cons_append, List.nil_append]

theorem labelsIn_while : (labelsIn i ifs w (whiles + 1)).Perm
    (LabelSort.again.label w :: LabelSort.loopDone.label w :: labelsIn i ifs (w + 1) whiles) := by
  refine List.perm_iff_count.2 fun name => ?_
  simp only [labelsIn, List.range'_succ, List.flatMap_cons, List.count_append, List.count_cons,
    List.count_nil]
  omega

theorem mem_labelsIn : name ∈ labelsIn i ifs w whiles ↔ Numbered i (i + ifs) w (w + whiles) name := by
  simp only [labelsIn, List.mem_append, List.mem_flatMap, List.mem_range'_1, List.mem_cons,
    List.not_mem_nil, or_false]
  constructor
  · rintro (⟨n, hn, rfl | rfl⟩ | ⟨n, hn, rfl | rfl⟩)
    · exact ⟨.otherwise, n, rfl, hn⟩
    · exact ⟨.branchDone, n, rfl, hn⟩
    · exact ⟨.again, n, rfl, hn⟩
    · exact ⟨.loopDone, n, rfl, hn⟩
  · rintro ⟨sort, n, rfl, hn⟩
    cases sort with
    | otherwise => exact .inl ⟨n, hn, .inl rfl⟩
    | branchDone => exact .inl ⟨n, hn, .inr rfl⟩
    | again => exact .inr ⟨n, hn, .inl rfl⟩
    | loopDone => exact .inr ⟨n, hn, .inr rfl⟩

/-- A label with a number below a range is not in it. -/
theorem Numbered.number_ge {i' w' n : Nat} {sort : LabelSort} (h : Numbered i i' w w' (sort.label n)) :
    match sort with
    | .otherwise | .branchDone => i ≤ n
    | .again | .loopDone => w ≤ n := by
  obtain ⟨sort', k, heq, h⟩ := h
  obtain ⟨rfl, rfl⟩ := LabelSort.label_inj heq
  cases sort <;> exact h.1

theorem nodup_labelsIn : (labelsIn i ifs w whiles).Nodup := by
  induction ifs generalizing i with
  | zero =>
    induction whiles generalizing w with
    | zero => exact List.nodup_nil
    | succ whiles ih =>
      have hlabels : LabelSort.again.label w ≠ LabelSort.loopDone.label w := fun heq => by
        simpa using (LabelSort.label_inj heq).1
      have hfresh : ∀ sort : LabelSort, sort = .again ∨ sort = .loopDone →
          sort.label w ∉ labelsIn i 0 (w + 1) whiles := by
        intro sort hsort hmem
        have hge := (mem_labelsIn.1 hmem).number_ge
        rcases hsort with rfl | rfl <;> simp only at hge <;> omega
      rw [labelsIn_while.nodup_iff, List.nodup_cons, List.nodup_cons, List.mem_cons, not_or]
      exact ⟨⟨hlabels, hfresh _ (.inl rfl)⟩, hfresh _ (.inr rfl), ih⟩
  | succ ifs ih =>
    have hlabels : LabelSort.otherwise.label i ≠ LabelSort.branchDone.label i := fun heq => by
      simpa using (LabelSort.label_inj heq).1
    have hfresh : ∀ sort : LabelSort, sort = .otherwise ∨ sort = .branchDone →
        sort.label i ∉ labelsIn (i + 1) ifs w whiles := by
      intro sort hsort hmem
      have hge := (mem_labelsIn.1 hmem).number_ge
      rcases hsort with rfl | rfl <;> simp only at hge <;> omega
    rw [labelsIn_if, List.nodup_cons, List.nodup_cons, List.mem_cons, not_or]
    exact ⟨⟨hlabels, hfresh _ (.inl rfl)⟩, hfresh _ (.inr rfl), ih⟩

end LabelsIn

/-- The labels in the code are those of so many statements numbered from the first ones on, and for
each of them there is one jump. -/
structure Labelled (code : List Instruction) (i ifs w whiles : Nat) : Prop where
  labels : (labelsOf code).Perm (labelsIn i ifs w whiles)
  targets : (targetsOf code).Perm (labelsIn i ifs w whiles)

namespace Labelled

variable {code code' : List Instruction} {i ifs ifs' w whiles whiles' : Nat}

theorem nodup (h : Labelled code i ifs w whiles) : (labelsOf code).Nodup :=
  h.labels.nodup_iff.2 nodup_labelsIn

theorem perm (h : Labelled code i ifs w whiles) : (targetsOf code).Perm (labelsOf code) :=
  h.targets.trans h.labels.symm

theorem append (h : Labelled code i ifs w whiles)
    (h' : Labelled code' (i + ifs) ifs' (w + whiles) whiles') :
    Labelled (code ++ code') i (ifs + ifs') w (whiles + whiles') where
  labels := by
    rw [labelsOf_append]
    exact (h.labels.append h'.labels).trans labelsIn_append.symm
  targets := by
    rw [targetsOf_append]
    exact (h.targets.append h'.targets).trans labelsIn_append.symm

/-- Code without labels and jumps takes no number. -/
theorem of_bare (h : Bare code) (i w : Nat) : Labelled code i 0 w 0 where
  labels := by rw [h.labelsOf]; exact .nil
  targets := by rw [h.targetsOf]; exact .nil

variable {condition : List Instruction} (hc : Bare condition)

include hc

theorem ifCode (h : Labelled code (i + 1) ifs w whiles)
    (h' : Labelled code' (i + 1 + ifs) ifs' (w + whiles) whiles') :
    Labelled (ifCode (.numbered i) condition code code') i (ifs + ifs' + 1) w (whiles + whiles') := by
  have hboth := h.append h'
  refine ⟨?_, ?_⟩
  · have hlabels : labelsOf (Syntax.ifCode (.numbered i) condition code code') =
        labelsOf code ++ LabelSort.otherwise.label i ::
          (labelsOf code' ++ [LabelSort.branchDone.label i]) := by
      simp only [Syntax.ifCode, labelsOf_append, hc.labelsOf]
      simp [labelsOf, List.filterMap_cons, Instruction.label?, LabelSort.label]
    rw [hlabels, labelsIn_if]
    refine List.perm_middle.trans (.cons _ ?_)
    rw [← List.append_assoc, ← labelsOf_append]
    exact (List.perm_append_singleton ..).trans (hboth.labels.cons _)
  · have htargets : targetsOf (Syntax.ifCode (.numbered i) condition code code') =
        LabelSort.otherwise.label i :: (targetsOf code ++ LabelSort.branchDone.label i ::
          targetsOf code') := by
      simp only [Syntax.ifCode, targetsOf_append, hc.targetsOf]
      simp [targetsOf, List.filterMap_cons, Instruction.target?, LabelSort.label]
    rw [htargets, labelsIn_if]
    refine .cons _ (List.perm_middle.trans ?_)
    rw [← targetsOf_append]
    exact hboth.targets.cons _

theorem whileCode (h : Labelled code i ifs (w + 1) whiles) :
    Labelled (whileCode (.numbered w) condition code) i ifs w (whiles + 1) := by
  refine ⟨?_, ?_⟩
  · have hlabels : labelsOf (Syntax.whileCode (.numbered w) condition code) =
        LabelSort.again.label w :: (labelsOf code ++ [LabelSort.loopDone.label w]) := by
      have hl := hc.labelsOf
      simp only [labelsOf] at hl ⊢
      simp [Syntax.whileCode, hl, List.filterMap_cons, Instruction.label?, LabelSort.label]
    rw [hlabels]
    refine .trans (.cons _ ?_) labelsIn_while.symm
    exact (List.perm_append_singleton ..).trans (h.labels.cons _)
  · have htargets : targetsOf (Syntax.whileCode (.numbered w) condition code) =
        LabelSort.loopDone.label w :: (targetsOf code ++ [LabelSort.again.label w]) := by
      have ht := hc.targetsOf
      simp only [targetsOf] at ht ⊢
      simp [Syntax.whileCode, ht, List.filterMap_cons, Instruction.target?, LabelSort.label]
    rw [htargets]
    refine .trans ?_ labelsIn_while.symm
    refine .trans ?_ (.swap ..)
    exact .cons _ ((List.perm_append_singleton ..).trans (h.targets.cons _))

end Labelled

namespace Syntax

variable {b : Bindings}

/-! ## Labels of blocks -/

/-- Code that computes has neither labels nor jumps. -/
theorem label?_of_computes {kinds : List Token.Kind} {i : Instruction} (h : Computes b kinds i) :
    i.label? = none ∧ i.target? = none := by
  cases h with
  | this =>
    simp only [Bindings.this]
    split <;> exact ⟨rfl, rfl⟩
  | _ => exact ⟨rfl, rfl⟩

theorem Expression.bare (e : Expression) : Bare (e.code b) :=
  fun i hi => label?_of_computes (e.computes (.refl _) i hi)

theorem Call.bare (c : Call) : Bare (c.code b) :=
  fun i hi => label?_of_computes (c.computes (.refl _) i hi)

theorem Bindings.bare_read (name : String) : Bare (b.read name) :=
  fun i hi => label?_of_computes (@computes_read b [] name i hi)

theorem Bindings.bare_write (name : String) : Bare (b.write name) := by
  unfold write Bare
  cases b.resolve name <;> simp [Symbol.pop, Instruction.label?, Instruction.target?]

theorem bare_storeElement : Bare storeElement := by
  simp [Bare, storeElement, Instruction.label?, Instruction.target?]

theorem bare_command (action : Command) : Bare [.command action] := by
  simp [Bare, Instruction.label?, Instruction.target?]

mutual

theorem Statement.labelled : ∀ (st : Statement) (i w : Nat),
    Labelled (st.code b i w) i st.ifs w st.whiles
  | .assign name value, i, w =>
    .of_bare (bare_append.2 ⟨value.bare, Bindings.bare_write name⟩) i w
  | .assignElement array index value, i, w => by
    refine .of_bare ?_ i w
    simp only [Statement.code, bare_append]
    exact ⟨⟨⟨⟨Bindings.bare_read array, index.bare⟩, bare_command .add⟩, value.bare⟩,
      bare_storeElement⟩
  | .conditional condition body, i, w =>
    .ifCode condition.bare (body.labelled (i + 1) w) (.of_bare (by simp [Bare]) _ _)
  | .alternative condition body otherwise, i, w =>
    .ifCode condition.bare (body.labelled (i + 1) w) (otherwise.labelled _ _)
  | .loop condition body, i, w => .whileCode condition.bare (body.labelled i (w + 1))
  | .call c, i, w => by
    refine .of_bare (bare_append.2 ⟨c.bare, ?_⟩) i w
    simp [Bare, Instruction.label?, Instruction.target?]
  | .giveBack none, i, w => .of_bare (bare_command .ret) i w
  | .giveBack (some value), i, w => .of_bare (bare_append.2 ⟨value.bare, bare_command .ret⟩) i w

theorem Block.labelled : ∀ (body : Block) (i w : Nat),
    Labelled (body.code b i w) i body.ifs w body.whiles
  | .nil, i, w => .of_bare (by simp [Bare, Block.code]) i w
  | .cons first rest, i, w => (first.labelled i w).append (rest.labelled _ _)

end

end Syntax

end Jack

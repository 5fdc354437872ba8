import Jack.Proofs.ClassCode
import Jack.Proofs.Depth
import Jack.Proofs.SubroutineRun

/-!
# Stack discipline

The height of the stack above where a function began is a matter of counting: every instruction needs
some values, takes them off and leaves others, and a `return` begins anew. In compiled code no
instruction needs more than there is, and nothing is left where control comes together
(`Disciplined`). The heights before the `return`s tell those with a value from those without
(`Block.returnHeights_code`). What has been shown of depths that may fail (`settle`) gives all that is
counted here (`disciplined_of_settle`).
-/

namespace Jack

open Compiler Syntax Machine

/-! ## Counting -/

/-- How many values an instruction needs on the stack. -/
def Instruction.needs : Instruction → Nat
  | .push _ _ | .label _ | .goto _ | .function _ _ | .command .ret => 0
  | .pop _ _ | .ifGoto _ | .command .neg | .command .not => 1
  | .command _ => 2
  | .call _ count => count

/-- How many values it leaves in their place. -/
def Instruction.leaves : Instruction → Nat
  | .push _ _ | .call _ _ => 1
  | .command .ret => 0
  | .command _ => 1
  | _ => 0

/-- The height behind an instruction; what follows a `return` begins anew. -/
def Instruction.heightAfter (height : Nat) (i : Instruction) : Nat :=
  if i = .command .ret then 0 else height - i.needs + i.leaves

/-- The height behind code that is read from a height. -/
def heightAfter (height : Nat) (code : List Instruction) : Nat :=
  code.foldl Instruction.heightAfter height

/-- The heights before the `return`s of code that is read from a height. -/
def returnHeights (height : Nat) : List Instruction → List Nat
  | [] => []
  | i :: code =>
    (if i = .command .ret then [height] else []) ++ returnHeights (i.heightAfter height) code

/-- Read from the height, no instruction of the code needs more than there is. -/
def Meets (height : Nat) (code : List Instruction) : Prop :=
  ∀ j i, code[j]? = some i → i.needs ≤ heightAfter height (code.take j)

/-- The code of a function keeps to its own part of the stack, and leaves nothing where control
comes together. -/
structure Disciplined (code : List Instruction) : Prop where
  meets : Meets 0 code
  label : ∀ j name, code[j]? = some (.label name) → heightAfter 0 (code.take j) = 0
  goto : ∀ j name, code[j]? = some (.goto name) → heightAfter 0 (code.take j) = 0
  ifGoto : ∀ j name, code[j]? = some (.ifGoto name) → heightAfter 0 (code.take (j + 1)) = 0
  ret : ∀ j, code[j]? = some (.command .ret) → heightAfter 0 (code.take j) ≤ 1
  ended : heightAfter 0 code = 0

variable {code code' : List Instruction} {height height' : Nat} {i : Instruction}

theorem heightAfter_append (height : Nat) (code code' : List Instruction) :
    heightAfter height (code ++ code') = heightAfter (heightAfter height code) code' :=
  List.foldl_append

theorem returnHeights_append (height : Nat) (code code' : List Instruction) :
    returnHeights height (code ++ code') =
      returnHeights height code ++ returnHeights (heightAfter height code) code' := by
  induction code generalizing height with
  | nil => rfl
  | cons i code ih =>
    rw [List.cons_append, returnHeights, ih, returnHeights, List.append_assoc]
    rfl

/-! ## Counting where depths do not fail -/

theorem Instruction.heightAfter_of_settle (h : i.settle height = some height') :
    i.needs ≤ height ∧ i.heightAfter height = height' := by
  cases i with
  | push segment index =>
    simp only [settle, Option.some.injEq] at h
    simp [needs, leaves, heightAfter, h]
  | pop segment index =>
    simp only [settle, Option.ite_none_right_eq_some, Option.some.injEq] at h
    simp [needs, leaves, heightAfter, h]
  | command action =>
    cases action <;>
      simp only [settle, Command.settle, Option.ite_none_right_eq_some, Option.some.injEq] at h <;>
      simp [needs, leaves, heightAfter] <;> omega
  | label name | goto name | function name count =>
    simp only [settle, Option.ite_none_right_eq_some, Option.some.injEq] at h
    simp [needs, leaves, heightAfter, h]
  | ifGoto name =>
    simp only [settle, Option.ite_none_right_eq_some, Option.some.injEq] at h
    simp [needs, leaves, heightAfter, h]
  | call name count =>
    simp only [settle, Option.ite_none_right_eq_some, Option.some.injEq] at h
    simp [needs, leaves, heightAfter, h]

theorem heightAfter_of_settle (h : settle height code = some height') :
    heightAfter height code = height' := by
  induction code generalizing height with
  | nil => exact Option.some.inj h
  | cons i code ih =>
    rw [settle_cons] at h
    obtain ⟨next, hi, hcode⟩ := Option.bind_eq_some_iff.1 h
    rw [heightAfter, List.foldl_cons, (Instruction.heightAfter_of_settle hi).2]
    exact ih hcode

/-- Before every instruction there is a depth at which it does not fail. -/
theorem exists_settle_of_getElem? {j : Nat} (h : settle height code = some height')
    (hi : code[j]? = some i) : ∃ depth depth', settle height (code.take j) = some depth ∧
      i.settle depth = some depth' ∧ settle height (code.take (j + 1)) = some depth' := by
  obtain ⟨hlt, rfl⟩ := List.getElem?_eq_some_iff.1 hi
  rw [← List.take_append_drop j code, settle_append] at h
  obtain ⟨depth, hdepth, hrest⟩ := Option.bind_eq_some_iff.1 h
  rw [List.drop_eq_getElem_cons hlt, settle_cons] at hrest
  obtain ⟨depth', hdepth', -⟩ := Option.bind_eq_some_iff.1 hrest
  refine ⟨depth, depth', hdepth, hdepth', ?_⟩
  rw [List.take_add_one, hi, settle_append, hdepth]
  simpa using hdepth'

theorem meets_of_settle (h : settle height code = some height') : Meets height code := by
  intro j i hi
  obtain ⟨depth, depth', hdepth, hsettle, -⟩ := exists_settle_of_getElem? h hi
  rw [heightAfter_of_settle hdepth]
  exact (Instruction.heightAfter_of_settle hsettle).1

theorem disciplined_of_settle (h : settle 0 code = some 0) : Disciplined code where
  meets := meets_of_settle h
  label j name hi := by
    obtain ⟨depth, depth', hdepth, hsettle, -⟩ := exists_settle_of_getElem? h hi
    rw [heightAfter_of_settle hdepth]
    exact (Option.ite_none_right_eq_some.1 hsettle).1
  goto j name hi := by
    obtain ⟨depth, depth', hdepth, hsettle, -⟩ := exists_settle_of_getElem? h hi
    rw [heightAfter_of_settle hdepth]
    exact (Option.ite_none_right_eq_some.1 hsettle).1
  ifGoto j name hi := by
    obtain ⟨depth, depth', -, hsettle, hnext⟩ := exists_settle_of_getElem? h hi
    rw [heightAfter_of_settle hnext]
    exact (Option.some.inj (Option.ite_none_right_eq_some.1 hsettle).2).symm
  ret j hi := by
    obtain ⟨depth, depth', hdepth, hsettle, -⟩ := exists_settle_of_getElem? h hi
    rw [heightAfter_of_settle hdepth]
    exact (Option.ite_none_right_eq_some.1 hsettle).1
  ended := heightAfter_of_settle h

/-! ## Returns -/

namespace Syntax

mutual

/-- The values of the `return` statements, in the order of the text. -/
def Statement.returns : Statement → List (Option Expression)
  | .conditional _ body => body.returns
  | .alternative _ body otherwise => body.returns ++ otherwise.returns
  | .loop _ body => body.returns
  | .giveBack value => [value]
  | _ => []

def Block.returns : Block → List (Option Expression)
  | .nil => []
  | .cons first rest => first.returns ++ rest.returns

end

/-- A value to give back is left on the stack. -/
def returnHeight (value : Option Expression) : Nat := if value.isSome then 1 else 0

end Syntax

/-- There is no `return` in the code. -/
def Unreturning (code : List Instruction) : Prop := Instruction.command .ret ∉ code

theorem Unreturning.returnHeights (h : Unreturning code) (height : Nat) :
    returnHeights height code = [] := by
  induction code generalizing height with
  | nil => rfl
  | cons i code ih =>
    unfold Unreturning at h
    rw [List.mem_cons, not_or] at h
    rw [Jack.returnHeights, if_neg (Ne.symm h.1), ih h.2, List.nil_append]

theorem unreturning_append : Unreturning (code ++ code') ↔ Unreturning code ∧ Unreturning code' := by
  rw [Unreturning, List.mem_append, not_or]
  rfl

namespace Syntax

variable {b : Bindings}

theorem Expression.unreturning (e : Expression) : Unreturning (e.code b) := by
  intro h
  have hcomputes := e.computes (.refl e.tokens) _ h
  generalize hi : Instruction.command .ret = i at hcomputes
  cases hcomputes with
  | command h => exact h (Instruction.command.inj hi).symm
  | this =>
    unfold Bindings.this at hi
    split at hi <;> simp at hi
  | _ => simp [Symbol.push, Routine.call] at hi

theorem Bindings.unreturning_write (name : String) : Unreturning (b.write name) := by
  intro h
  simp only [write, Option.mem_toList, Option.map_eq_some_iff, Symbol.pop, reduceCtorEq, and_false,
    exists_false] at h

theorem unreturning_bindObject (fieldCount : Nat) (kind : Subroutine.Kind) :
    Unreturning (bindObject fieldCount kind) := by
  cases kind <;> simp [Unreturning, bindObject, Routine.call]

section Control

variable {condition body otherwise : List Instruction} (hcondition : Unreturning condition)
  (hc : settle 0 condition = some 1) (hb : settle 0 body = some 0)

include hcondition hc hb

theorem returnHeights_ifCode {labels : BranchLabels} (ho : settle 0 otherwise = some 0) :
    returnHeights 0 (ifCode labels condition body otherwise) =
      returnHeights 0 body ++ returnHeights 0 otherwise := by
  have hbranch : heightAfter 1 [.command .not, .ifGoto labels.otherwise] = 0 := rfl
  have hjump : heightAfter 0 [.goto labels.done, .label labels.otherwise] = 0 := rfl
  have hreturns : returnHeights 1 [.command .not, .ifGoto labels.otherwise] = [] := rfl
  have hreturns' : returnHeights 0 [.goto labels.done, .label labels.otherwise] = [] := rfl
  have hlast : returnHeights 0 [.label labels.done] = [] := rfl
  simp only [ifCode, returnHeights_append, heightAfter_append, hcondition.returnHeights,
    heightAfter_of_settle hc, hbranch, hreturns, heightAfter_of_settle hb, hjump, hreturns',
    heightAfter_of_settle ho, hlast, List.nil_append, List.append_nil]

theorem returnHeights_whileCode {labels : LoopLabels} :
    returnHeights 0 (whileCode labels condition body) = returnHeights 0 body := by
  have hbranch : heightAfter 1 [.command .not, .ifGoto labels.done] = 0 := rfl
  have hreturns : returnHeights 1 [.command .not, .ifGoto labels.done] = [] := rfl
  have hagain : returnHeights 0 [.label labels.again] = [] := rfl
  have hlast : returnHeights 0 [.goto labels.again, .label labels.done] = [] := rfl
  have hsplit : whileCode labels condition body = [.label labels.again] ++ (condition ++
      [.command .not, .ifGoto labels.done] ++ body ++ [.goto labels.again, .label labels.done]) := by
    simp [whileCode]
  have hstart : heightAfter 0 [.label labels.again] = 0 := rfl
  simp only [hsplit, returnHeights_append, heightAfter_append, hstart, hagain,
    hcondition.returnHeights, heightAfter_of_settle hc, hbranch, hreturns, heightAfter_of_settle hb,
    hlast, List.nil_append, List.append_nil]

end Control

mutual

theorem Statement.returnHeights_code : ∀ (st : Statement)
    (_ : ∀ name ∈ st.mentions, b.Declares name) (i w : Nat),
    returnHeights 0 (st.code b i w) = st.returns.map returnHeight
  | .assign name value, _, i, w => by
    rw [Statement.code, returnHeights_append, value.unreturning.returnHeights,
      (Bindings.unreturning_write name).returnHeights]
    rfl
  | .assignElement array index value, _, i, w => by
    have hread : Unreturning (b.read array) := (Expression.term (.variable array)).unreturning
    have hadd : Unreturning [.command .add] := by simp [Unreturning]
    have hstore : Unreturning storeElement := by simp [Unreturning, storeElement]
    have hcode : Unreturning (b.read array ++ index.code b ++ [.command .add] ++ value.code b ++
        storeElement) := by
      simp only [unreturning_append]
      exact ⟨⟨⟨⟨hread, index.unreturning⟩, hadd⟩, value.unreturning⟩, hstore⟩
    rw [Statement.code, hcode.returnHeights]
    rfl
  | .conditional condition body, h, i, w => by
    rw [Statement.mentions, List.forall_mem_append] at h
    rw [Statement.code, returnHeights_ifCode condition.unreturning (condition.settle_code h.1 0)
      (body.settle_code h.2 _ _) rfl, body.returnHeights_code h.2]
    exact List.append_nil _
  | .alternative condition body otherwise, h, i, w => by
    rw [Statement.mentions, List.forall_mem_append, List.forall_mem_append] at h
    rw [Statement.code, returnHeights_ifCode condition.unreturning (condition.settle_code h.1.1 0)
      (body.settle_code h.1.2 _ _) (otherwise.settle_code h.2 _ _), body.returnHeights_code h.1.2,
      otherwise.returnHeights_code h.2, Statement.returns, List.map_append]
  | .loop condition body, h, i, w => by
    rw [Statement.mentions, List.forall_mem_append] at h
    rw [Statement.code, returnHeights_whileCode condition.unreturning (condition.settle_code h.1 0)
      (body.settle_code h.2 _ _), body.returnHeights_code h.2]
    rfl
  | .call c, h, i, w => by
    have hcall : Unreturning (c.code b) := (Expression.term (.call c)).unreturning
    rw [Statement.code, returnHeights_append, hcall.returnHeights]
    rfl
  | .giveBack none, _, i, w => rfl
  | .giveBack (some value), h, i, w => by
    rw [Statement.code, returnHeights_append, value.unreturning.returnHeights,
      heightAfter_of_settle (value.settle_code h 0)]
    rfl

theorem Block.returnHeights_code : ∀ (body : Block) (_ : ∀ name ∈ body.mentions, b.Declares name)
    (i w : Nat), returnHeights 0 (body.code b i w) = body.returns.map returnHeight
  | .nil, _, i, w => rfl
  | .cons first rest, h, i, w => by
    rw [Block.mentions, List.forall_mem_append] at h
    rw [Block.code, returnHeights_append, first.returnHeights_code h.1,
      heightAfter_of_settle (first.settle_code h.1 i w), rest.returnHeights_code h.2, Block.returns,
      List.map_append]

end

/-! ## Functions of a class -/

variable {k : ClassDeclaration} {d : SubroutineDeclaration}

theorem settle_definition (h : d.Scoped (bindings k d)) (i w : Nat) :
    settle 0 (d.definition k i w).body = some 0 := by
  rw [SubroutineDeclaration.definition, settle_append, settle_bindObject, Option.bind_some,
    d.body.settle_code h.declares]

theorem returnHeights_definition (h : d.Scoped (bindings k d)) (i w : Nat) :
    returnHeights 0 (d.definition k i w).body = d.body.returns.map returnHeight := by
  rw [SubroutineDeclaration.definition, returnHeights_append,
    (unreturning_bindObject _ _).returnHeights, heightAfter_of_settle (settle_bindObject _ _),
    d.body.returnHeights_code h.declares, List.nil_append]

end Syntax

/-- In every function that a source is compiled to, the instructions find the values that they need,
nothing is left where control comes together, and the heights before the `return`s are one where a
value is given back and zero where none is: for an expression leaves one value, on top of what there
is, and a statement none. -/
theorem stack_discipline {source : Source} {code : List Instruction} {f : Definition}
    (h : compileClass source = .ok code) (hf : f.IsIn code) :
    Disciplined f.body ∧ ∃ (k : ClassDeclaration) (d : SubroutineDeclaration),
      k.Compiles source ∧ d ∈ k.subroutines ∧ f.name = k.name ++ "." ++ d.name ∧
      returnHeights 0 f.body = d.body.returns.map returnHeight ∧
      (∀ e : Expression, (∀ name ∈ e.mentions, (bindings k d).Declares name) → ∀ height,
        Meets height (e.code (bindings k d)) ∧
          heightAfter height (e.code (bindings k d)) = height + 1) ∧
      ∀ st : Statement, (∀ name ∈ st.mentions, (bindings k d).Declares name) → ∀ i w,
        Meets 0 (st.code (bindings k d) i w) ∧ heightAfter 0 (st.code (bindings k d) i w) = 0 := by
  obtain ⟨k, d, i, w, hk, hd, rfl⟩ := exists_definition_of_isIn h hf
  have hscoped := hk.rules.subroutines d hd
  refine ⟨disciplined_of_settle (settle_definition hscoped i w), k, d, hk, hd, rfl,
    returnHeights_definition hscoped i w, fun e he height => ?_, fun st hst i w => ?_⟩
  · have hsettle := e.settle_code he height
    exact ⟨meets_of_settle hsettle, heightAfter_of_settle hsettle⟩
  · have hsettle := st.settle_code hst i w
    exact ⟨meets_of_settle hsettle, heightAfter_of_settle hsettle⟩

/-- The method of a class with calls and a branch is disciplined, and gives its value back at the
height one. -/
theorem stack_discipline_grow : Disciplined (growSubroutine.definition rowClass 1 1).body ∧
    returnHeights 0 (growSubroutine.definition rowClass 1 1).body = [1] := by
  obtain ⟨hdisciplined, k, d, hk, hd, hname, hheights, -⟩ :=
    stack_discipline rowClass_compiles.compileClass_eq isIn_growSubroutine
  obtain ⟨rfl, rfl⟩ := eq_growSubroutine hk hd hname
  exact ⟨hdisciplined, hheights⟩

end Jack

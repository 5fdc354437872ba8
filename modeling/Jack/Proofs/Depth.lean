import Jack.Proofs.Loaded

/-!
# The depth of the stack

Every instruction takes values from the stack and puts values on it. Code that is read from a depth
at which every instruction finds what it takes ends at another depth: an expression leaves one value
more (`Expression.settle_code`), a statement none (`Statement.settle_code`). Labels, jumps and the
entries of functions stand where nothing is left over, so a depth belongs to every address of a class
(`Settled.exists_depth`), whichever way it is come to.
-/

namespace Jack

open Compiler Syntax

/-- The depth behind a command; none if too little lies on the stack, or too much for a `return`. -/
def Command.settle (depth : Nat) : Command → Option Nat
  | .ret => if depth ≤ 1 then some 0 else none
  | .neg | .not => if 1 ≤ depth then some depth else none
  | _ => if 2 ≤ depth then some (depth - 1) else none

/-- The depth behind an instruction; none if too little lies on the stack, or too much for one that
control passes through. -/
def Instruction.settle (depth : Nat) : Instruction → Option Nat
  | .push _ _ => some (depth + 1)
  | .pop _ _ => if 1 ≤ depth then some (depth - 1) else none
  | .command action => action.settle depth
  | .label _ | .goto _ | .function _ _ => if depth = 0 then some 0 else none
  | .ifGoto _ => if depth = 1 then some 0 else none
  | .call _ count => if count ≤ depth then some (depth - count + 1) else none

/-- The depth behind code that is read from a depth. -/
def settle (depth : Nat) (code : List Instruction) : Option Nat :=
  code.foldlM Instruction.settle depth

variable {depth : Nat} {code code' : List Instruction}

@[simp] theorem settle_nil (depth : Nat) : settle depth [] = some depth := rfl

@[simp] theorem settle_cons (depth : Nat) (i : Instruction) (code : List Instruction) :
    settle depth (i :: code) = (i.settle depth).bind (settle · code) := by
  simp only [settle, List.foldlM_cons]
  rfl

@[simp] theorem settle_append (depth : Nat) (code code' : List Instruction) :
    settle depth (code ++ code') = (settle depth code).bind (settle · code') := by
  simp only [settle, List.foldlM_append]
  rfl

namespace Syntax

variable {b : Bindings}

/-! ## Expressions -/

theorem Bindings.settle_read {name : String} (h : b.Declares name) (depth : Nat) :
    settle depth (b.read name) = some (depth + 1) := by
  obtain ⟨s, hs⟩ := Option.isSome_iff_exists.1 h
  simp [read, hs, Symbol.push, Instruction.settle]

theorem Bindings.settle_write {name : String} (h : b.Declares name) (depth : Nat) :
    settle (depth + 1) (b.write name) = some depth := by
  obtain ⟨s, hs⟩ := Option.isSome_iff_exists.1 h
  simp [write, hs, Symbol.pop, Instruction.settle]

@[simp] theorem Bindings.settle_this (b : Bindings) (depth : Nat) :
    b.this.settle depth = some (depth + 1) := by
  unfold this
  split <;> rfl

theorem settle_flatMap_appendCode (content : List Char) (depth : Nat) :
    settle (depth + 1) (content.flatMap appendCode) = some (depth + 1) := by
  induction content with
  | nil => rfl
  | cons c content ih =>
    rw [List.flatMap_cons, settle_append]
    simpa [appendCode, Routine.call, Routine.arity, Instruction.settle] using ih

theorem settle_stringCode (content : List Char) (depth : Nat) :
    settle depth (stringCode content) = some (depth + 1) := by
  rw [stringCode, settle_append]
  simpa [Routine.call, Routine.arity, Instruction.settle] using
    settle_flatMap_appendCode content depth

theorem settle_operator (op : Operator) (depth : Nat) :
    op.instruction.settle (depth + 2) = some (depth + 1) := by
  cases op <;> simp [Operator.instruction, Routine.call, Routine.arity, Instruction.settle,
    Command.settle]

theorem settle_unary (op : UnaryOperator) (depth : Nat) :
    op.instruction.settle (depth + 1) = some (depth + 1) := by
  cases op <;> simp [UnaryOperator.instruction, Instruction.settle, Command.settle]

theorem settle_call (name : String) (depth count : Nat) :
    (Instruction.call name count).settle (depth + count) = some (depth + 1) := by
  rw [Instruction.settle, if_pos (Nat.le_add_left ..), Nat.add_sub_cancel]

mutual

theorem Term.settle_code : ∀ (t : Term) (_ : ∀ name ∈ t.mentions, b.Declares name) (depth : Nat),
    settle depth (t.code b) = some (depth + 1)
  | .integer _, _, depth | .false, _, depth | .null, _, depth => rfl
  | .true, _, depth => by simp [Term.code, trueCode, Instruction.settle, Command.settle]
  | .string content, _, depth => settle_stringCode content.toList depth
  | .this, _, depth => by simp [Term.code]
  | .group e, h, depth => e.settle_code h depth
  | .unary op t, h, depth => by
    rw [Term.code, settle_append, t.settle_code h depth]
    simp [settle_unary]
  | .variable name, h, depth => Bindings.settle_read (h name (by simp [Term.mentions])) depth
  | .element array index, h, depth => by
    rw [Term.mentions, List.forall_mem_cons] at h
    simp only [Term.code, settle_append, Bindings.settle_read h.1, Option.bind_some,
      index.settle_code h.2]
    simp [loadElement, Instruction.settle, Command.settle]
  | .call c, h, depth => c.settle_code h depth

theorem Expression.settle_code : ∀ (e : Expression) (_ : ∀ name ∈ e.mentions, b.Declares name)
    (depth : Nat), settle depth (e.code b) = some (depth + 1)
  | .term t, h, depth => t.settle_code h depth
  | .operation left op right, h, depth => by
    rw [Expression.mentions, List.forall_mem_append] at h
    simp only [Expression.code, settle_append, left.settle_code h.1, right.settle_code h.2,
      Option.bind_some, settle_cons, settle_operator, settle_nil]

theorem Call.settle_code : ∀ (c : Call) (_ : ∀ name ∈ c.mentions, b.Declares name) (depth : Nat),
    settle depth (c.code b) = some (depth + 1)
  | .own name arguments, h, depth => by
    simp only [Call.code, List.cons_append, settle_cons, Bindings.settle_this, settle_append,
      Option.bind_some, arguments.settle_code h, Nat.add_right_comm depth 1, Nat.add_assoc depth,
      settle_call, settle_nil]
  | .qualified qualifier name arguments, h, depth => by
    cases hr : b.resolve qualifier with
    | none =>
      simp only [Call.code, hr, settle_append, arguments.settle_code h, Option.bind_some,
        settle_cons, settle_call, settle_nil]
    | some s =>
      have hpush : s.push.settle depth = some (depth + 1) := rfl
      simp only [Call.code, hr, List.cons_append, settle_cons, hpush, settle_append,
        Option.bind_some, arguments.settle_code h, Nat.add_right_comm depth 1, Nat.add_assoc depth,
        settle_call, settle_nil]

/-- Every argument is left on the stack. -/
theorem Arguments.settle_code : ∀ (a : Arguments) (_ : ∀ name ∈ a.mentions, b.Declares name)
    (depth : Nat), settle depth (a.code b) = some (depth + a.length)
  | .nil, _, _ => rfl
  | .cons first rest, h, depth => by
    rw [Arguments.mentions, List.forall_mem_append] at h
    simp only [Arguments.code, settle_append, first.settle_code h.1, Option.bind_some,
      rest.settle_code h.2, Arguments.length]
    congr 1
    omega

end

/-! ## Statements -/

theorem settle_ifCode {labels : BranchLabels} {condition body otherwise : List Instruction}
    (hc : settle 0 condition = some 1) (hb : settle 0 body = some 0)
    (ho : settle 0 otherwise = some 0) :
    settle 0 (ifCode labels condition body otherwise) = some 0 := by
  simp [ifCode, hc, hb, ho, Instruction.settle, Command.settle]

theorem settle_whileCode {labels : LoopLabels} {condition body : List Instruction}
    (hc : settle 0 condition = some 1) (hb : settle 0 body = some 0) :
    settle 0 (whileCode labels condition body) = some 0 := by
  simp [whileCode, hc, hb, Instruction.settle, Command.settle]

mutual

theorem Statement.settle_code : ∀ (st : Statement) (_ : ∀ name ∈ st.mentions, b.Declares name)
    (i w : Nat), settle 0 (st.code b i w) = some 0
  | .assign name value, h, i, w => by
    rw [Statement.mentions, List.forall_mem_cons] at h
    rw [Statement.code, settle_append, value.settle_code h.2, Option.bind_some,
      Bindings.settle_write h.1]
  | .assignElement array index value, h, i, w => by
    rw [Statement.mentions, List.cons_append, List.forall_mem_cons, List.forall_mem_append] at h
    have hadd : settle 2 [.command .add] = some 1 := rfl
    have hstore : settle 2 storeElement = some 0 := rfl
    simp only [Statement.code, settle_append, Bindings.settle_read h.1, index.settle_code h.2.1,
      Option.bind_some, Nat.zero_add, Nat.reduceAdd, hadd, value.settle_code h.2.2, hstore]
  | .conditional condition body, h, i, w => by
    rw [Statement.mentions, List.forall_mem_append] at h
    exact settle_ifCode (condition.settle_code h.1 0) (body.settle_code h.2 _ _) rfl
  | .alternative condition body otherwise, h, i, w => by
    rw [Statement.mentions, List.forall_mem_append, List.forall_mem_append] at h
    exact settle_ifCode (condition.settle_code h.1.1 0) (body.settle_code h.1.2 _ _)
      (otherwise.settle_code h.2 _ _)
  | .loop condition body, h, i, w => by
    rw [Statement.mentions, List.forall_mem_append] at h
    exact settle_whileCode (condition.settle_code h.1 0) (body.settle_code h.2 _ _)
  | .call c, h, i, w => by
    rw [Statement.code, settle_append, c.settle_code h, Option.bind_some]
    simp [Instruction.settle]
  | .giveBack none, _, i, w => rfl
  | .giveBack (some value), h, i, w => by
    rw [Statement.code, settle_append, value.settle_code h, Option.bind_some]
    simp [Instruction.settle, Command.settle]

theorem Block.settle_code : ∀ (body : Block) (_ : ∀ name ∈ body.mentions, b.Declares name)
    (i w : Nat), settle 0 (body.code b i w) = some 0
  | .nil, _, i, w => rfl
  | .cons first rest, h, i, w => by
    rw [Block.mentions, List.forall_mem_append] at h
    rw [Block.code, settle_append, first.settle_code h.1, Option.bind_some, rest.settle_code h.2]

end

/-! ## Classes -/

variable {k : ClassDeclaration} {d : SubroutineDeclaration}

theorem settle_bindObject (fieldCount : Nat) (kind : Subroutine.Kind) :
    settle 0 (bindObject fieldCount kind) = some 0 := by
  cases kind <;> simp [bindObject, Routine.call, Routine.arity, Instruction.settle]

theorem SubroutineDeclaration.settle_code (h : d.Scoped (bindings k d)) (i w : Nat) :
    settle 0 (d.code k i w) = some 0 := by
  simp [SubroutineDeclaration.code, Instruction.settle, settle_bindObject,
    d.body.settle_code h.declares]

theorem settle_subroutinesCode {ds : List SubroutineDeclaration}
    (h : ∀ d ∈ ds, d.Scoped (bindings k d)) (i w : Nat) :
    settle 0 (subroutinesCode k i w ds) = some 0 := by
  induction ds generalizing i w with
  | nil => rfl
  | cons d ds ih =>
    rw [List.forall_mem_cons] at h
    rw [subroutinesCode, settle_append, d.settle_code h.1, Option.bind_some, ih h.2]

end Syntax

/-! ## The depth at an address -/

/-- Code that leaves nothing on the stack. -/
def Settled (code : List Instruction) : Prop := settle 0 code = some 0

/-- The depth before the instruction at an address. -/
def depthAt (code : List Instruction) (pc : Nat) : Option Nat := settle 0 (code.take pc)

theorem Settled.append (h : Settled code) (h' : Settled code') : Settled (code ++ code') := by
  rw [Settled, settle_append, h, Option.bind_some, h']

theorem Syntax.ClassDeclaration.settled {k : ClassDeclaration} (h : k.Scoped) : Settled k.code :=
  settle_subroutinesCode h.subroutines 0 0

theorem settled_flatMap {ks : List ClassDeclaration} (h : ∀ k ∈ ks, k.Scoped) :
    Settled (ks.flatMap (·.code)) := by
  induction ks with
  | nil => rfl
  | cons k ks ih =>
    rw [List.forall_mem_cons] at h
    rw [List.flatMap_cons]
    exact (k.settled h.1).append (ih h.2)

variable {pc : Nat} {i : Instruction}

/-- Every instruction finds on the stack what it takes. -/
theorem Settled.exists_depth (h : Settled code) (hi : code[pc]? = some i) :
    ∃ depth depth', depthAt code pc = some depth ∧ i.settle depth = some depth' ∧
      depthAt code (pc + 1) = some depth' := by
  obtain ⟨hlt, rfl⟩ := List.getElem?_eq_some_iff.1 hi
  have hnext : depthAt code (pc + 1) = (depthAt code pc).bind (code[pc].settle ·) := by
    rw [depthAt, depthAt, List.take_add_one, List.getElem?_eq_getElem hlt, settle_append]
    simp
  have hwhole := h
  rw [Settled, ← List.take_append_drop (pc + 1) code, settle_append, ← depthAt, hnext] at hwhole
  cases hd : depthAt code pc with
  | none => simp [hd] at hwhole
  | some depth =>
    rw [hd, Option.bind_some] at hwhole hnext
    cases hd' : code[pc].settle depth with
    | none => simp [hd'] at hwhole
    | some depth' => exact ⟨depth, depth', rfl, hd', hnext.trans hd'⟩

theorem Settled.depthAt_succ {depth : Nat} (h : Settled code) (hi : code[pc]? = some i)
    (hd : depthAt code pc = some depth) :
    ∃ depth', i.settle depth = some depth' ∧ depthAt code (pc + 1) = some depth' := by
  obtain ⟨_, depth', hd', hs, hnext⟩ := h.exists_depth hi
  obtain rfl := Option.some.inj (hd.symm.trans hd')
  exact ⟨depth', hs, hnext⟩

/-- The arguments of a call are there, and the value takes their place. -/
theorem Settled.depthAt_call {name : String} {count depth : Nat} (h : Settled code)
    (hi : code[pc]? = some (.call name count)) (hd : depthAt code pc = some depth) :
    count ≤ depth ∧ depthAt code (pc + 1) = some (depth - count + 1) := by
  obtain ⟨depth', hs, hnext⟩ := h.depthAt_succ hi hd
  obtain ⟨hcount, rfl⟩ : count ≤ depth ∧ depth - count + 1 = depth' := by
    simpa [Instruction.settle] using hs
  exact ⟨hcount, hnext⟩

/-- Nothing is left where control comes to from elsewhere. -/
theorem Settled.depthAt_label {name : String} (h : Settled code)
    (hi : code[pc]? = some (.label name)) : depthAt code pc = some 0 := by
  obtain ⟨depth, depth', hd, hs, -⟩ := h.exists_depth hi
  rw [Instruction.settle] at hs
  split at hs
  · rename_i h0
    rw [hd, h0]
  · simp at hs

theorem Settled.depthAt_function {name : String} {n : Nat} (h : Settled code)
    (hi : code[pc]? = some (.function name n)) : depthAt code pc = some 0 := by
  obtain ⟨depth, depth', hd, hs, -⟩ := h.exists_depth hi
  rw [Instruction.settle] at hs
  split at hs
  · rename_i h0
    rw [hd, h0]
  · simp at hs

end Jack

import Jack.Syntax.Lowering
import Jack.Syntax.Written

/-!
# The instructions of a class

Few instructions occur in the code of a class, and what they name and count comes from its tokens
(`Occurs`). Every fact about all instructions of a class can be had from this list
(`ClassDeclaration.occurs`).
-/

namespace Jack.Syntax

open Compiler
open Token (Kind)

/-! ## Parts of a phrase -/

/-- The tokens are among those of the phrase, and no more of them. -/
structure Within (part kinds : List Kind) : Prop where
  mem : ∀ k ∈ part, k ∈ kinds
  length : part.length ≤ kinds.length

theorem Within.refl (kinds : List Kind) : Within kinds kinds := ⟨fun _ h => h, Nat.le_refl _⟩

theorem Within.part {part part' kinds : List Kind} (h : Within part kinds)
    (hm : ∀ k ∈ part', k ∈ part) (hl : part'.length ≤ part.length) : Within part' kinds :=
  ⟨fun k hk => h.mem k (hm k hk), Nat.le_trans hl h.length⟩

/-- The label belongs to a statement. -/
def IsLabel (name : String) : Prop :=
  ∃ n, name ∈ [(BranchLabels.numbered n).otherwise, (BranchLabels.numbered n).done,
    (LoopLabels.numbered n).again, (LoopLabels.numbered n).done]

/-- The class that a call names: this one, that of a variable, or one that the call is written with. -/
def Bindings.Owns (b : Bindings) (kinds : List Kind) (owner : String) : Prop :=
  owner = b.className ∨ (∃ s ∈ b.visible, s.typeName = owner) ∨ .identifier owner ∈ kinds

/-- The instruction can stand in the code of an expression with these tokens. -/
inductive Computes (b : Bindings) (kinds : List Kind) : Instruction → Prop
  | integer {n : Nat} (h : .integer n ∈ kinds) : Computes b kinds (.push .constant n)
  /-- For `true`, `false` and `null`. -/
  | flag {n : Nat} (h : n ≤ 1) : Computes b kinds (.push .constant n)
  | length {content : String} (h : .string content ∈ kinds) :
    Computes b kinds (.push .constant content.toList.length)
  | character {content : String} {c : Char} (h : .string content ∈ kinds)
    (hc : c ∈ content.toList) : Computes b kinds (.push .constant c.toNat)
  | read {s : Symbol} (h : s ∈ b.visible) : Computes b kinds s.push
  | this : Computes b kinds b.this
  | pointer : Computes b kinds (.pop .pointer 1)
  | that : Computes b kinds (.push .that 0)
  | command {action : Command} (h : action ≠ .ret) : Computes b kinds (.command action)
  | routine (r : Routine) : Computes b kinds r.call
  | call {owner name : String} {count : Nat} (ho : b.Owns kinds owner)
    (hn : .identifier name ∈ kinds) (hc : count ≤ kinds.length) :
    Computes b kinds (.call (owner ++ "." ++ name) count)

/-- The instruction can stand in the code of statements with these tokens. -/
inductive Occurs (b : Bindings) (kinds : List Kind) : Instruction → Prop
  | compute {i : Instruction} (h : Computes b kinds i) : Occurs b kinds i
  | write {name : String} {s : Symbol} (hn : .identifier name ∈ kinds)
    (h : b.resolve name = some s) : Occurs b kinds s.pop
  | temp : Occurs b kinds (.push .temp 0)
  | popTemp : Occurs b kinds (.pop .temp 0)
  | popThat : Occurs b kinds (.pop .that 0)
  | ret : Occurs b kinds (.command .ret)
  | label {name : String} (h : IsLabel name) : Occurs b kinds (.label name)
  | goto {name : String} (h : IsLabel name) : Occurs b kinds (.goto name)
  | ifGoto {name : String} (h : IsLabel name) : Occurs b kinds (.ifGoto name)

variable {b : Bindings} {kinds : List Kind}

namespace Bindings

theorem mem_visible {name : String} {s : Symbol} (h : b.resolve name = some s) : s ∈ b.visible :=
  List.mem_of_find?_eq_some h

theorem computes_read (name : String) : ∀ i ∈ b.read name, Computes b kinds i := by
  intro i hi
  simp only [read, Option.mem_toList, Option.map_eq_some_iff] at hi
  obtain ⟨s, hs, rfl⟩ := hi
  exact .read (mem_visible hs)

theorem occurs_write {name : String} (hn : .identifier name ∈ kinds) :
    ∀ i ∈ b.write name, Occurs b kinds i := by
  intro i hi
  simp only [write, Option.mem_toList, Option.map_eq_some_iff] at hi
  obtain ⟨s, hs, rfl⟩ := hi
  exact .write hn hs

end Bindings

theorem computes_loadElement : ∀ i ∈ loadElement, Computes b kinds i := by
  simp only [loadElement, List.forall_mem_cons]
  exact ⟨.pointer, .that, by simp⟩

theorem occurs_storeElement : ∀ i ∈ storeElement, Occurs b kinds i := by
  simp only [storeElement, List.forall_mem_cons]
  exact ⟨.popTemp, .compute .pointer, .temp, .popThat, by simp⟩

theorem computes_stringCode {content : String} (h : .string content ∈ kinds) :
    ∀ i ∈ stringCode content.toList, Computes b kinds i := by
  intro i hi
  simp only [stringCode, List.mem_append, List.mem_cons, List.not_mem_nil, or_false,
    List.mem_flatMap, appendCode] at hi
  rcases hi with (rfl | rfl) | ⟨c, hc, rfl | rfl⟩
  · exact .length h
  · exact .routine .stringNew
  · exact .character h hc
  · exact .routine .stringAppendChar

theorem computes_operator (op : Operator) : Computes b kinds op.instruction := by
  cases op
  case multiply => exact .routine .mathMultiply
  case divide => exact .routine .mathDivide
  all_goals exact .command (by decide)

theorem computes_unary (op : UnaryOperator) : Computes b kinds op.instruction := by
  cases op <;> exact .command (by decide)

/-! ## Names -/

mutual

/-- What a phrase mentions, its tokens name. -/
theorem Term.identifier_mem : ∀ (t : Term) {name : String}, name ∈ t.mentions →
    Kind.identifier name ∈ t.tokens
  | .group e, _, h => by simp [Term.tokens, e.identifier_mem h]
  | .unary op t, _, h => by simp [Term.tokens, t.identifier_mem h]
  | .variable _, _, h => by simpa [Term.mentions, Term.tokens] using h
  | .element array index, _, h => by
    rcases List.mem_cons.1 h with rfl | h
    · simp [Term.tokens]
    · simp [Term.tokens, index.identifier_mem h]
  | .call c, _, h => c.identifier_mem h

theorem Expression.identifier_mem : ∀ (e : Expression) {name : String}, name ∈ e.mentions →
    Kind.identifier name ∈ e.tokens
  | .term t, _, h => t.identifier_mem h
  | .operation left op right, _, h => by
    rcases List.mem_append.1 h with h | h
    · simp [Expression.tokens, left.identifier_mem h]
    · simp [Expression.tokens, right.identifier_mem h]

theorem Call.identifier_mem : ∀ (c : Call) {name : String}, name ∈ c.mentions →
    Kind.identifier name ∈ c.tokens
  | .own _ arguments, _, h => by simp [Call.tokens, arguments.identifier_mem h]
  | .qualified _ _ arguments, _, h => by simp [Call.tokens, arguments.identifier_mem h]

theorem Arguments.identifier_mem : ∀ (a : Arguments) {name : String}, name ∈ a.mentions →
    Kind.identifier name ∈ a.tokens
  | .cons first .nil, _, h => by
    simp only [Arguments.mentions, List.append_nil] at h
    exact first.identifier_mem h
  | .cons first (.cons second rest), _, h => by
    rcases List.mem_append.1 h with h | h
    · simp [Arguments.tokens, first.identifier_mem h]
    · have hrest := Arguments.identifier_mem (.cons second rest) h
      simp [Arguments.tokens, hrest]

end

mutual

theorem Statement.identifier_mem : ∀ (st : Statement) {name : String}, name ∈ st.mentions →
    Kind.identifier name ∈ st.tokens
  | .assign _ value, _, h => by
    rcases List.mem_cons.1 h with rfl | h
    · simp [Statement.tokens]
    · simp [Statement.tokens, value.identifier_mem h]
  | .assignElement _ index value, _, h => by
    simp only [Statement.mentions, List.cons_append, List.mem_cons, List.mem_append] at h
    rcases h with rfl | h | h
    · simp [Statement.tokens]
    · simp [Statement.tokens, index.identifier_mem h]
    · simp [Statement.tokens, value.identifier_mem h]
  | .conditional condition body, _, h | .loop condition body, _, h => by
    rcases List.mem_append.1 h with h | h
    · simp [Statement.tokens, condition.identifier_mem h]
    · simp [Statement.tokens, body.identifier_mem h]
  | .alternative condition body otherwise, _, h => by
    simp only [Statement.mentions, List.mem_append] at h
    rcases h with (h | h) | h
    · simp [Statement.tokens, condition.identifier_mem h]
    · simp [Statement.tokens, body.identifier_mem h]
    · simp [Statement.tokens, otherwise.identifier_mem h]
  | .call c, _, h => by simp [Statement.tokens, c.identifier_mem h]
  | .giveBack (some value), _, h => by simp [Statement.tokens, value.identifier_mem h]

theorem Block.identifier_mem : ∀ (body : Block) {name : String}, name ∈ body.mentions →
    Kind.identifier name ∈ body.tokens
  | .cons first rest, _, h => by
    rcases List.mem_append.1 h with h | h
    · simp [Block.tokens, first.identifier_mem h]
    · simp [Block.tokens, rest.identifier_mem h]

end

/-! ## Expressions -/

mutual

theorem Term.tokens_pos : ∀ t : Term, 0 < t.tokens.length
  | .integer _ | .string _ | .true | .false | .null | .this | .group _ | .unary .. | .variable _
  | .element .. | .call (.own ..) | .call (.qualified ..) => by simp [Term.tokens, Call.tokens]

theorem Expression.tokens_pos : ∀ e : Expression, 0 < e.tokens.length
  | .term t => t.tokens_pos
  | .operation .. => by
    rw [Expression.tokens, List.length_append, List.length_cons]
    omega

end

theorem Arguments.length_le_tokens : ∀ a : Arguments, a.length ≤ a.tokens.length
  | .nil => Nat.le_refl 0
  | .cons first .nil => first.tokens_pos
  | .cons first (.cons second rest) => by
    have := length_le_tokens (.cons second rest)
    have := first.tokens_pos
    simp only [Arguments.length, Arguments.tokens, List.length_append, List.length_cons] at *
    omega

theorem Arguments.within_first {first : Expression} {rest : Arguments}
    (h : Within (Arguments.cons first rest).tokens kinds) : Within first.tokens kinds := by
  cases rest with
  | nil => exact h
  | cons second rest => exact h.part (by simp +contextual [Arguments.tokens]) (by simp [Arguments.tokens])

theorem Arguments.within_rest {first : Expression} {rest : Arguments}
    (h : Within (Arguments.cons first rest).tokens kinds) : Within rest.tokens kinds := by
  cases rest with
  | nil => exact h.part (by simp [Arguments.tokens]) (by simp [Arguments.tokens])
  | cons second rest =>
    exact h.part (by simp +contextual [Arguments.tokens]) (by simp [Arguments.tokens]; omega)

mutual

theorem Term.computes : ∀ (t : Term), Within t.tokens kinds → ∀ i ∈ t.code b, Computes b kinds i
  | .integer n, h => by
    simpa [Term.code] using Computes.integer (h.mem _ (by simp [Term.tokens]))
  | .string content, h => computes_stringCode (h.mem _ (by simp [Term.tokens]))
  | .true, _ => by
    simp only [Term.code, trueCode, List.forall_mem_cons]
    exact ⟨.flag (by decide), .command (by decide), by simp⟩
  | .false, _ | .null, _ => by
    simp only [Term.code, zeroCode, List.forall_mem_cons]
    exact ⟨.flag (by decide), by simp⟩
  | .this, _ => by
    simp only [Term.code, List.forall_mem_cons]
    exact ⟨.this, by simp⟩
  | .group e, h => e.computes (h.part (by simp +contextual [Term.tokens]) (by simp [Term.tokens]; omega))
  | .unary op t, h => by
    simp only [Term.code, List.forall_mem_append, List.forall_mem_singleton]
    exact ⟨t.computes (h.part (by simp +contextual [Term.tokens]) (by simp [Term.tokens])),
      computes_unary op⟩
  | .variable name, _ => Bindings.computes_read name
  | .element array index, h => by
    simp only [Term.code, List.forall_mem_append, List.forall_mem_singleton]
    exact ⟨⟨⟨Bindings.computes_read array,
      index.computes (h.part (by simp +contextual [Term.tokens]) (by simp [Term.tokens]; omega))⟩,
      .command (by decide)⟩, computes_loadElement⟩
  | .call c, h => c.computes h

theorem Expression.computes : ∀ (e : Expression), Within e.tokens kinds →
    ∀ i ∈ e.code b, Computes b kinds i
  | .term t, h => t.computes h
  | .operation left op right, h => by
    simp only [Expression.code, List.forall_mem_append, List.forall_mem_singleton]
    exact ⟨⟨left.computes (h.part (by simp +contextual [Expression.tokens])
        (by simp [Expression.tokens])),
      right.computes (h.part (by simp +contextual [Expression.tokens])
        (by simp [Expression.tokens]; omega))⟩, computes_operator op⟩

theorem Call.computes : ∀ (c : Call), Within c.tokens kinds → ∀ i ∈ c.code b, Computes b kinds i
  | .own name arguments, h => by
    have hlength := arguments.length_le_tokens
    have hle := h.length
    simp only [Call.tokens, List.length_append, List.length_cons, List.length_nil] at hle
    simp only [Call.code, List.cons_append, List.forall_mem_cons, List.forall_mem_append]
    exact ⟨.this, arguments.computes (h.part (by simp +contextual [Call.tokens])
      (by simp [Call.tokens]; omega)),
      .call (.inl rfl) (h.mem _ (by simp [Call.tokens])) (by omega), by simp⟩
  | .qualified qualifier name arguments, h => by
    have hlength := arguments.length_le_tokens
    have hle := h.length
    simp only [Call.tokens, List.length_append, List.length_cons, List.length_nil] at hle
    have harguments : ∀ i ∈ arguments.code b, Computes b kinds i := arguments.computes
      (h.part (by simp +contextual [Call.tokens]) (by simp [Call.tokens]; omega))
    have hname : .identifier name ∈ kinds := h.mem _ (by simp [Call.tokens])
    cases hr : b.resolve qualifier with
    | none =>
      simp only [Call.code, hr, List.forall_mem_append, List.forall_mem_singleton]
      exact ⟨harguments, .call (.inr (.inr (h.mem _ (by simp [Call.tokens])))) hname (by omega)⟩
    | some s =>
      have hs := Bindings.mem_visible hr
      simp only [Call.code, hr, List.cons_append, List.forall_mem_cons, List.forall_mem_append]
      exact ⟨.read hs, harguments, .call (.inr (.inl ⟨s, hs, rfl⟩)) hname (by omega), by simp⟩

theorem Arguments.computes : ∀ (a : Arguments), Within a.tokens kinds →
    ∀ i ∈ a.code b, Computes b kinds i
  | .nil, _ => by simp [Arguments.code]
  | .cons first rest, h => by
    simp only [Arguments.code, List.forall_mem_append]
    exact ⟨first.computes (Arguments.within_first h), rest.computes (Arguments.within_rest h)⟩

end

/-! ## Statements -/

theorem isLabel_otherwise (n : Nat) : IsLabel (BranchLabels.numbered n).otherwise := ⟨n, by simp⟩

theorem isLabel_branchDone (n : Nat) : IsLabel (BranchLabels.numbered n).done := ⟨n, by simp⟩

theorem isLabel_again (n : Nat) : IsLabel (LoopLabels.numbered n).again := ⟨n, by simp⟩

theorem isLabel_loopDone (n : Nat) : IsLabel (LoopLabels.numbered n).done := ⟨n, by simp⟩

theorem occurs_ifCode {n : Nat} {condition body otherwise : List Instruction}
    (hc : ∀ i ∈ condition, Occurs b kinds i) (hb : ∀ i ∈ body, Occurs b kinds i)
    (ho : ∀ i ∈ otherwise, Occurs b kinds i) :
    ∀ i ∈ ifCode (.numbered n) condition body otherwise, Occurs b kinds i := by
  simp only [ifCode, List.forall_mem_append, List.forall_mem_cons]
  exact ⟨⟨⟨⟨⟨hc, .compute (.command (by decide)), .ifGoto (isLabel_otherwise n), by simp⟩, hb⟩,
    .goto (isLabel_branchDone n), .label (isLabel_otherwise n), by simp⟩, ho⟩,
    .label (isLabel_branchDone n), by simp⟩

theorem occurs_whileCode {n : Nat} {condition body : List Instruction}
    (hc : ∀ i ∈ condition, Occurs b kinds i) (hb : ∀ i ∈ body, Occurs b kinds i) :
    ∀ i ∈ whileCode (.numbered n) condition body, Occurs b kinds i := by
  simp only [whileCode, List.cons_append, List.forall_mem_append, List.forall_mem_cons]
  exact ⟨.label (isLabel_again n),
    ⟨⟨⟨hc, .compute (.command (by decide)), .ifGoto (isLabel_loopDone n), by simp⟩, hb⟩,
    .goto (isLabel_again n), .label (isLabel_loopDone n), by simp⟩⟩

theorem Expression.occurs {e : Expression} (h : Within e.tokens kinds) :
    ∀ i ∈ e.code b, Occurs b kinds i := fun i hi => .compute (e.computes h i hi)

theorem Call.occurs {c : Call} (h : Within c.tokens kinds) : ∀ i ∈ c.code b, Occurs b kinds i :=
  fun i hi => .compute (c.computes h i hi)

mutual

theorem Statement.occurs : ∀ (st : Statement) {i w : Nat}, Within st.tokens kinds →
    ∀ j ∈ st.code b i w, Occurs b kinds j
  | .assign name value, i, w, h => by
    simp only [Statement.code, List.forall_mem_append]
    exact ⟨value.occurs (h.part (by simp +contextual [Statement.tokens])
      (by simp [Statement.tokens]; omega)),
      Bindings.occurs_write (h.mem (.identifier name) (by simp [Statement.tokens]))⟩
  | .assignElement array index value, i, w, h => by
    simp only [Statement.code, List.forall_mem_append, List.forall_mem_singleton]
    exact ⟨⟨⟨⟨fun i hi => .compute (Bindings.computes_read array i hi),
      index.occurs (h.part (by simp +contextual [Statement.tokens])
        (by simp [Statement.tokens]; omega))⟩, .compute (.command (by decide))⟩,
      value.occurs (h.part (by simp +contextual [Statement.tokens])
        (by simp [Statement.tokens]; omega))⟩, occurs_storeElement⟩
  | .conditional condition body, i, w, h =>
    occurs_ifCode
      (condition.occurs (h.part (by simp +contextual [Statement.tokens])
        (by simp [Statement.tokens]; omega)))
      (body.occurs (h.part (by simp +contextual [Statement.tokens])
        (by simp [Statement.tokens]; omega))) (by simp)
  | .alternative condition body otherwise, i, w, h =>
    occurs_ifCode
      (condition.occurs (h.part (by simp +contextual [Statement.tokens])
        (by simp [Statement.tokens]; omega)))
      (body.occurs (h.part (by simp +contextual [Statement.tokens])
        (by simp [Statement.tokens]; omega)))
      (otherwise.occurs (h.part (by simp +contextual [Statement.tokens])
        (by simp [Statement.tokens]; omega)))
  | .loop condition body, i, w, h =>
    occurs_whileCode
      (condition.occurs (h.part (by simp +contextual [Statement.tokens])
        (by simp [Statement.tokens]; omega)))
      (body.occurs (h.part (by simp +contextual [Statement.tokens])
        (by simp [Statement.tokens]; omega)))
  | .call c, i, w, h => by
    simp only [Statement.code, List.forall_mem_append, List.forall_mem_singleton]
    exact ⟨c.occurs (h.part (by simp +contextual [Statement.tokens])
      (by simp [Statement.tokens]; omega)), .popTemp⟩
  | .giveBack none, i, w, h => by
    simp only [Statement.code, List.forall_mem_singleton]
    exact .ret
  | .giveBack (some value), i, w, h => by
    simp only [Statement.code, List.forall_mem_append, List.forall_mem_singleton]
    exact ⟨value.occurs (h.part (by simp +contextual [Statement.tokens])
      (by simp [Statement.tokens]; omega)), .ret⟩

theorem Block.occurs : ∀ (body : Block) {i w : Nat}, Within body.tokens kinds →
    ∀ j ∈ body.code b i w, Occurs b kinds j
  | .nil, i, w, h => by simp [Block.code]
  | .cons first rest, i, w, h => by
    simp only [Block.code, List.forall_mem_append]
    exact ⟨first.occurs (h.part (by simp +contextual [Block.tokens]) (by simp [Block.tokens])),
      rest.occurs (h.part (by simp +contextual [Block.tokens]) (by simp [Block.tokens]))⟩

end

/-! ## Classes -/

/-- The instruction can stand in the code of the class. -/
inductive ClassDeclaration.Occurs (k : ClassDeclaration) : Instruction → Prop
  | function {d : SubroutineDeclaration} (h : d ∈ k.subroutines) :
    k.Occurs (.function (k.name ++ "." ++ d.name) (d.locals.flatMap (·.names)).length)
  /-- A constructor makes room for the fields. -/
  | fieldCount : k.Occurs (.push .constant (k.declared.countP (·.kind = .field)))
  | receiver : k.Occurs (.push .arguments 0)
  | popObject : k.Occurs (.pop .pointer 0)
  | body {d : SubroutineDeclaration} {i : Instruction} (hd : d ∈ k.subroutines)
    (h : Syntax.Occurs (bindings k d) k.tokens i) : k.Occurs i

variable {k : ClassDeclaration}

theorem within_of_mem_subroutines {d : SubroutineDeclaration} (h : d ∈ k.subroutines) :
    Within d.tokens k.tokens where
  mem t ht := by
    simp only [ClassDeclaration.tokens, List.mem_append, List.mem_cons, List.mem_flatMap]
    exact .inl (.inr ⟨d, h, ht⟩)
  length := by
    have hle : d.tokens.length ≤ (k.subroutines.flatMap SubroutineDeclaration.tokens).length := by
      rw [List.flatMap_def]
      exact (List.sublist_flatten_of_mem (List.mem_map_of_mem h)).length_le
    simp only [ClassDeclaration.tokens, List.length_append, List.length_cons]
    omega

theorem SubroutineDeclaration.occurs {d : SubroutineDeclaration} {i w : Nat}
    (h : d ∈ k.subroutines) : ∀ j ∈ d.code k i w, k.Occurs j := by
  have hbody : Within d.body.tokens k.tokens := (within_of_mem_subroutines h).part
    (by simp +contextual [SubroutineDeclaration.tokens]) (by simp [SubroutineDeclaration.tokens]; omega)
  simp only [SubroutineDeclaration.code, List.cons_append, List.forall_mem_cons,
    List.forall_mem_append]
  refine ⟨.function h, ?_, fun j hj => .body h (d.body.occurs hbody j hj)⟩
  cases d.kind with
  | constructor =>
    simp only [bindObject, List.forall_mem_cons]
    exact ⟨.fieldCount, .body h (.compute (.routine .memoryAlloc)), .popObject, by simp⟩
  | function => simp [bindObject]
  | method =>
    simp only [bindObject, List.forall_mem_cons]
    exact ⟨.receiver, .popObject, by simp⟩

theorem occurs_subroutinesCode {ds : List SubroutineDeclaration} (h : ∀ d ∈ ds, d ∈ k.subroutines)
    {i w : Nat} : ∀ j ∈ subroutinesCode k i w ds, k.Occurs j := by
  induction ds generalizing i w with
  | nil => simp [subroutinesCode]
  | cons d ds ih =>
    simp only [subroutinesCode, List.forall_mem_append]
    exact ⟨d.occurs (h d (by simp)), ih fun d' hd' => h d' (List.mem_cons_of_mem _ hd')⟩

/-- Nothing else stands in the code of a class. -/
theorem ClassDeclaration.occurs (k : ClassDeclaration) : ∀ i ∈ k.code, k.Occurs i :=
  occurs_subroutinesCode fun _ h => h

end Jack.Syntax

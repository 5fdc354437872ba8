import Jack.Proofs.SubroutineRun

/-!
# Slots

The variables of a kind take the indices from zero on, in the order in which they are declared
(`map_filter_visible`), so that no two variables that a subroutine can name have the same slot
(`nodup_slots`). Besides the slots of variables, code uses the two bases of objects, the current
element and one temporary value, and it never stores to a constant (`Slotted`).
-/

namespace Jack

open Syntax Compiler Machine
open Token (Kind)

/-- Where a variable is in memory. -/
def Symbol.slot (s : Symbol) : Segment × Nat := (s.kind.segment, s.index)

namespace Syntax

variable {k : ClassDeclaration} {d : SubroutineDeclaration} {kind : Symbol.Kind}

/-- The variables of a kind that a subroutine has, in the order of their declarations. A method has
the current object before its parameters. -/
def namesOf (k : ClassDeclaration) (d : SubroutineDeclaration) : Symbol.Kind → List String
  | .staticVar => (k.declarations.filter (·.ownership = .ofClass)).flatMap (·.declaration.names)
  | .field => (k.declarations.filter (·.ownership = .ofObject)).flatMap (·.declaration.names)
  | .argument => (if d.kind = .method then [Keyword.thisKeyword.text] else []) ++
      d.parameters.map (·.name)
  | .localVar => d.locals.flatMap (·.names)

/-! ## Indices -/

/-- Symbols of a kind are numbered in the order of their declarations. -/
theorem map_filter_symbols (ds : List Declared) (kind : Symbol.Kind) :
    ((symbols ds).filter (·.kind = kind)).map (fun s => (s.name, s.index)) =
      ((ds.filter (·.kind = kind)).map (·.name)).zipIdx := by
  induction ds using List.reverseRecOn with
  | nil => rfl
  | append_singleton ds d ih =>
    rw [symbols_snoc, List.filter_append, List.map_append, ih, List.filter_append, List.map_append,
      List.zipIdx_append, List.length_map, ← List.countP_eq_length_filter]
    by_cases hk : d.kind = kind
    · subst hk
      simp
    · simp [hk]

theorem filter_symbols_eq_nil (ds : List Declared) (h : ∀ e ∈ ds, e.kind ≠ kind) :
    (symbols ds).filter (·.kind = kind) = [] := by
  rw [List.filter_eq_nil_iff]
  intro s hs
  obtain ⟨e, he, -, -, hk, -⟩ := mem_symbols hs
  rw [hk, decide_eq_true_eq]
  exact h e he

theorem filter_declared (ownership : Ownership) :
    (k.declared.filter (·.kind = ownership.kind)).map (·.name) =
      (k.declarations.filter (·.ownership = ownership)).flatMap (·.declaration.names) := by
  unfold ClassDeclaration.declared
  induction k.declarations with
  | nil => rfl
  | cons v vs ih =>
    have hkind : v.ownership.kind = ownership.kind ↔ v.ownership = ownership := by
      cases v.ownership <;> cases ownership <;> decide
    rw [List.flatMap_cons, List.filter_append, List.map_append, ih, List.filter_cons]
    by_cases h : v.ownership = ownership
    · simp [ClassVariables.declared, Variables.declared, List.filter_map, Function.comp_def, h]
    · simp [ClassVariables.declared, Variables.declared, List.filter_map, Function.comp_def, h,
        hkind]

/-- The variables of each kind have the indices from zero on, in the order of their declarations. -/
theorem map_filter_visible (k : ClassDeclaration) (d : SubroutineDeclaration) (kind : Symbol.Kind) :
    ((bindings k d).visible.filter (·.kind = kind)).map (fun s => (s.name, s.index)) =
      (namesOf k d kind).zipIdx := by
  have hown : ∀ e ∈ d.implicit k.name ++ d.declared, e.kind = .argument ∨ e.kind = .localVar :=
    fun _ => kind_of_mem_own
  have hclass : ∀ e ∈ k.declared, e.kind = .staticVar ∨ e.kind = .field := fun _ =>
    Environment.kind_of_mem_class
  unfold bindings namesOf
  rw [List.filter_append]
  cases kind with
  | staticVar =>
    rw [filter_symbols_eq_nil _ fun e he => by rcases hown e he with h | h <;> simp [h],
      List.nil_append, map_filter_symbols]
    exact congrArg List.zipIdx (filter_declared .ofClass)
  | field =>
    rw [filter_symbols_eq_nil _ fun e he => by rcases hown e he with h | h <;> simp [h],
      List.nil_append, map_filter_symbols]
    exact congrArg List.zipIdx (filter_declared .ofObject)
  | argument =>
    rw [filter_symbols_eq_nil k.declared fun e he => by
      rcases hclass e he with h | h <;> simp [h], List.append_nil, map_filter_symbols,
      filter_arguments]
  | localVar =>
    rw [filter_symbols_eq_nil k.declared fun e he => by
      rcases hclass e he with h | h <;> simp [h], List.append_nil, map_filter_symbols,
      filter_locals]

theorem index_lt_of_mem_visible {s : Symbol} (h : s ∈ (bindings k d).visible) :
    s.index < (namesOf k d s.kind).length := by
  have hmem : (s.name, s.index) ∈ (namesOf k d s.kind).zipIdx := by
    rw [← map_filter_visible]
    exact List.mem_map_of_mem (f := fun s : Symbol => (s.name, s.index))
      (List.mem_filter.2 ⟨h, decide_eq_true rfl⟩)
  exact List.snd_lt_of_mem_zipIdx hmem

/-- No two of the variables that a subroutine can name are in the same place. -/
theorem nodup_slots (k : ClassDeclaration) (d : SubroutineDeclaration) :
    ((bindings k d).visible.map Symbol.slot).Nodup := by
  have hkind : ∀ kind, (bindings k d).visible.Pairwise fun s s' =>
      s.kind = kind → s'.kind = kind → s.index ≠ s'.index := by
    intro kind
    have hindices : (((bindings k d).visible.filter (·.kind = kind)).map (·.index)).Nodup := by
      have hrange := congrArg (List.map Prod.snd) (map_filter_visible k d kind)
      rw [List.map_map, List.zipIdx_map_snd] at hrange
      rw [show (fun s : Symbol => s.index) = Prod.snd ∘ fun s => (s.name, s.index) from rfl, hrange]
      exact List.nodup_range'
    rw [List.Nodup, List.pairwise_map, List.pairwise_filter] at hindices
    simpa using hindices
  rw [List.Nodup, List.pairwise_map, List.pairwise_iff_getElem]
  intro i j hi hj hlt heq
  obtain ⟨hsegment, hindex⟩ := Prod.mk.inj heq
  have hsame : (bindings k d).visible[j].kind = (bindings k d).visible[i].kind := by
    revert hsegment
    cases (bindings k d).visible[i].kind <;> cases (bindings k d).visible[j].kind <;>
      simp [Symbol.Kind.segment]
  exact List.pairwise_iff_getElem.1 (hkind _) i j hi hj hlt rfl hsame hindex

/-! ## Instructions -/

/-- The slot is there in the function of a subroutine. -/
def HasSlot (k : ClassDeclaration) (d : SubroutineDeclaration) : Segment → Nat → Prop
  | .locals, index => index < (namesOf k d .localVar).length
  | .arguments, index => index < (namesOf k d .argument).length
  | .statics, index => index < (namesOf k d .staticVar).length
  | .this, index => index < (namesOf k d .field).length
  | .pointer, index => index ≤ 1
  | .that, index | .temp, index => index = 0
  | .constant, _ => True

/-- The instruction takes from slots that are there, and stores to those that can be stored to. -/
def Slotted (k : ClassDeclaration) (d : SubroutineDeclaration) : Instruction → Prop
  | .push segment index => HasSlot k d segment index
  | .pop segment index => HasSlot k d segment index ∧ segment ≠ .constant
  | _ => True

theorem hasSlot_of_mem_visible {s : Symbol} (h : s ∈ (bindings k d).visible) :
    HasSlot k d s.kind.segment s.index := by
  have hlt := index_lt_of_mem_visible h
  cases hk : s.kind <;> rw [hk] at hlt <;> exact hlt

theorem hasSlot_receiver (h : d.kind = .method) : HasSlot k d .arguments 0 := by
  simp [HasSlot, namesOf, h]

theorem slotted_of_computes {kinds : List Kind} {i : Instruction}
    (h : Computes (bindings k d) kinds i) : Slotted k d i := by
  cases h with
  | read h => exact hasSlot_of_mem_visible h
  | this =>
    unfold Bindings.this
    split
    · rename_i hmethod
      exact hasSlot_receiver hmethod
    · exact Nat.zero_le 1
  | pointer => exact ⟨Nat.le_refl 1, by decide⟩
  | that => exact rfl
  | _ => trivial

theorem slotted_of_occurs {kinds : List Kind} {i : Instruction}
    (h : Occurs (bindings k d) kinds i) : Slotted k d i := by
  cases h with
  | compute h => exact slotted_of_computes h
  | @write name s hn h =>
    refine ⟨hasSlot_of_mem_visible (Bindings.mem_visible h), ?_⟩
    cases s.kind <;> decide
  | temp => exact rfl
  | popTemp | popThat => exact ⟨rfl, by decide⟩
  | _ => trivial

theorem slotted_bindObject (n : Nat) : ∀ i ∈ bindObject n d.kind, Slotted k d i := by
  unfold bindObject
  cases hk : d.kind with
  | constructor =>
    simp only [List.forall_mem_cons]
    exact ⟨trivial, trivial, ⟨Nat.zero_le 1, by decide⟩, by simp⟩
  | method =>
    simp only [List.forall_mem_cons]
    exact ⟨hasSlot_receiver hk, ⟨Nat.zero_le 1, by decide⟩, by simp⟩
  | function => simp

theorem slotted_definition (k : ClassDeclaration) (d : SubroutineDeclaration) (i w : Nat) :
    ∀ j ∈ (d.definition k i w).body, Slotted k d j := by
  unfold SubroutineDeclaration.definition
  rw [List.forall_mem_append]
  exact ⟨slotted_bindObject _, fun j hj => slotted_of_occurs (d.body.occurs (.refl _) j hj)⟩

end Syntax

/-- A function of a compiled source is that of a subroutine. It has as many locals as that declares,
and uses only slots that are there. The variables that the subroutine can name all have different
slots, and those of a kind have the indices from zero on, in the order of their declarations. -/
theorem slots_exist {source : Source} {code : List Instruction} {f : Definition}
    (h : compileClass source = .ok code) (hf : f.IsIn code) :
    ∃ (k : ClassDeclaration) (d : SubroutineDeclaration) (i w : Nat),
      k.Compiles source ∧ d ∈ k.subroutines ∧ f = d.definition k i w ∧
      f.localCount = (namesOf k d .localVar).length ∧
      (∀ j ∈ f.body, Slotted k d j) ∧
      ((bindings k d).visible.map Symbol.slot).Nodup ∧
      ∀ kind, ((bindings k d).visible.filter (·.kind = kind)).map (fun s => (s.name, s.index)) =
        (namesOf k d kind).zipIdx := by
  obtain ⟨k, d, i, w, hk, hd, rfl⟩ := exists_definition_of_isIn h hf
  exact ⟨k, d, i, w, hk, hd, rfl, rfl, slotted_definition k d i w, nodup_slots k d,
    map_filter_visible k d⟩

/-- The method of a class with a static and a field keeps to its slots, which are all different. -/
theorem slots_exist_grow :
    (growSubroutine.definition rowClass 1 1).localCount = 1 ∧
      (∀ j ∈ (growSubroutine.definition rowClass 1 1).body, Slotted rowClass growSubroutine j) ∧
      ((bindings rowClass growSubroutine).visible.map Symbol.slot).Nodup := by
  obtain ⟨k, d, i, w, hk, hd, hdefinition, hlocals, hslots, hdistinct, -⟩ :=
    slots_exist rowClass_compiles.compileClass_eq isIn_growSubroutine
  obtain ⟨rfl, rfl⟩ := eq_growSubroutine hk hd (congrArg Definition.name hdefinition)
  exact ⟨hlocals, hslots, hdistinct⟩

end Jack

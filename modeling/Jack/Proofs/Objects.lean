import Jack.Proofs.ControlSafety
import Jack.Proofs.Ledger
import Jack.Proofs.Slots
import Mathlib.Data.List.Pairwise

/-!
# Objects do not share fields

The blocks of the heap that have been handed out are disjoint (`Ledger.disjoint`). A constructor asks
for as many cells as its class has fields, and binds the block it is given (`binds_of_walk`), and the
fields of a class are numbered below that (`exists_field`). So an assignment to a field of an object
stores inside the block of that object, and outside of all others (`assigns`).

A constructor that is called with the stack pointer at zero is another matter: the number of the
fields lands on the stack pointer itself, and what it asks for is one cell.
-/

namespace Jack

open Syntax Compiler Machine

/-! ## Fields -/

namespace Syntax

variable {k : ClassDeclaration} {d : SubroutineDeclaration}

/-- The fields of the objects of a class, in the order of their declarations. -/
def ClassDeclaration.fields (k : ClassDeclaration) : List String :=
  (k.declarations.filter (·.ownership = .ofObject)).flatMap (·.declaration.names)

theorem countP_fields (k : ClassDeclaration) :
    k.declared.countP (·.kind = .field) = k.fields.length := by
  have h := congrArg List.length (filter_declared (k := k) .ofObject)
  rw [List.length_map, ← List.countP_eq_length_filter] at h
  exact h

/-- A field that is visible has the index of its declaration. -/
theorem getElem?_fields {s : Symbol} (h : s ∈ (bindings k d).visible) (hk : s.kind = .field) :
    k.fields[s.index]? = some s.name := by
  have hmem : (s.name, s.index) ∈ (namesOf k d .field).zipIdx := by
    rw [← map_filter_visible]
    exact List.mem_map_of_mem (f := fun s : Symbol => (s.name, s.index))
      (List.mem_filter.2 ⟨h, decide_eq_true hk⟩)
  exact List.mem_zipIdx_iff_getElem?.1 hmem

theorem segment_eq_this {kind : Symbol.Kind} (h : kind.segment = .this) : kind = .field := by
  cases kind <;> simp [Symbol.Kind.segment] at h ⊢

/-- Code of a class that goes through `this` accesses a field, at the index of its declaration. -/
theorem exists_field {j : Instruction} {i : Nat} (hj : j ∈ k.code)
    (hthis : j = .push .this i ∨ j = .pop .this i) :
    ∃ d ∈ k.subroutines, ∃ s ∈ (bindings k d).visible, s.kind = .field ∧ s.index = i ∧
      k.fields[i]? = some s.name := by
  have hfound : ∀ {d : SubroutineDeclaration} {s : Symbol}, d ∈ k.subroutines →
      s ∈ (bindings k d).visible → s.kind.segment = .this → s.index = i →
      ∃ d ∈ k.subroutines, ∃ s ∈ (bindings k d).visible, s.kind = .field ∧ s.index = i ∧
        k.fields[i]? = some s.name := by
    rintro d s hd hs hsegment rfl
    have hk := segment_eq_this hsegment
    exact ⟨d, hd, s, hs, hk, rfl, getElem?_fields hs hk⟩
  cases k.occurs j hj with
  | function | fieldCount | receiver | popObject => simp at hthis
  | body hd h =>
    cases h with
    | compute h =>
      cases h with
      | read hs =>
        simp only [Symbol.push, Instruction.push.injEq, reduceCtorEq, or_false] at hthis
        exact hfound hd hs hthis.1 hthis.2
      | this =>
        simp only [Bindings.this] at hthis
        split at hthis <;> simp at hthis
      | _ => simp [Routine.call] at hthis
    | @write name s hn hs =>
      simp only [Symbol.pop, reduceCtorEq, Instruction.pop.injEq, false_or] at hthis
      exact hfound hd (Bindings.mem_visible hs) hthis.1 hthis.2
    | _ => simp at hthis

end Syntax

namespace Machine

variable {ks : List ClassDeclaration} {k : ClassDeclaration} {m₀ m m₁ m' : Machine}
  {log : List Request} {sp n : Nat}

/-! ## Blocks -/

instance : Std.Symm HeapBlock.Disjoint := ⟨fun _ _ h a ha ha' => h a ha' ha⟩

/-- No cell is in two blocks. -/
theorem Ledger.disjoint (h : Ledger m₀ log m) : (blocksOf log).Pairwise HeapBlock.Disjoint := by
  refine h.answered.blocks.1.imp fun hle a ha ha' => ?_
  rw [HeapBlock.mem_iff] at ha ha'
  omega

theorem Ledger.within (h : Ledger m₀ log m) (hheap : m₀.heapEnd = heapBase) {b : HeapBlock}
    (hb : b ∈ blocksOf log) {a : Nat} (ha : a ∈ b) : heapBase ≤ a ∧ a ≤ 32766 := by
  obtain ⟨hlow, -, hlt⟩ := h.answered.blocks.2 b hb
  simp only [ramSize] at hlt
  rw [HeapBlock.mem_iff] at ha
  omega

/-! ## Places in the code -/

/-- At this address a constructor of the class begins. -/
def BeginsConstructor (ks : List ClassDeclaration) (k : ClassDeclaration) (pc : Nat) : Prop :=
  ∃ before after d i w, ks.flatMap (·.definitions) = before ++ d.definition k i w :: after ∧
    k ∈ ks ∧ d ∈ k.subroutines ∧ d.kind = .constructor ∧ pc = (codeOf before).length

/-- The address lies in the code of the class. -/
def LiesInClass (ks : List ClassDeclaration) (k : ClassDeclaration) (pc : Nat) : Prop :=
  ∃ before after, ks = before ++ k :: after ∧ (before.flatMap (·.code)).length ≤ pc ∧
    pc < (before.flatMap (·.code)).length + k.code.length

/-- A constructor counts the fields, asks for as many cells and binds what it is given. -/
theorem BeginsConstructor.placed {pc : Nat} (h : BeginsConstructor ks k pc) :
    ∃ name count, Placed (.ofInstructions (ks.flatMap (·.code))) pc
      [.function name count, .push .constant k.fields.length, Routine.memoryAlloc.call,
        .pop .pointer 0] := by
  obtain ⟨before, after, d, i, w, hsplit, -, -, hkind, rfl⟩ := h
  have hbody : ∀ j < 3, (codeOf (before ++ d.definition k i w :: after))[
      (codeOf before).length + 1 + j]? = (bindObject k.fields.length .constructor)[j]? := by
    intro j hj
    rw [Program.getElem?_body, SubroutineDeclaration.definition, hkind, countP_fields,
      List.append_assoc, List.getElem?_append_left hj]
  refine ⟨(d.definition k i w).name, (d.definition k i w).localCount, ?_⟩
  rw [← codeOf_flatMap_definitions, hsplit]
  simp only [placed_cons, placed_nil, Program.code_ofInstructions, List.getElem?_toArray, and_true]
  exact ⟨Program.getElem?_entry, hbody 0 (by decide), hbody 1 (by decide), hbody 2 (by decide)⟩

theorem LiesInClass.mem {pc : Nat} {j : Instruction} (h : LiesInClass ks k pc)
    (hj : (ks.flatMap (·.code))[pc]? = some j) : k ∈ ks ∧ j ∈ k.code := by
  obtain ⟨before, after, rfl, hle, hlt⟩ := h
  rw [List.flatMap_append, List.flatMap_cons, List.getElem?_append_right hle,
    List.getElem?_append_left (by omega)] at hj
  exact ⟨by simp, List.mem_of_getElem? hj⟩

/-! ## Constructors -/

/-- The machine has been given a block of so many cells, and has bound it. -/
def Binds (m₀ : Machine) (log : List Request) (place n : Nat) (m' : Machine) : Prop :=
  ∃ (r : Request) (b : HeapBlock), Ledger m₀ (log ++ [r]) m' ∧ r.place = place ∧
    r.block? = some b ∧ b.size = n ∧ m'.word 3 = saturate b.start

theorem run_step_alloc (hi : m.instruction? = some Routine.memoryAlloc.call)
    (hsp : m.word 0 = saturate (sp + 1)) (hlt : sp < 32767) (hn : m.word sp = saturate n)
    (hroom : m.heapEnd + n < ramSize) :
    m.request? = some ⟨m.pc, saturate n, .ok (saturate m.heapEnd)⟩ ∧
      step.run m = .ok none ((m.next.taken (saturate n)).pushed sp (saturate m.heapEnd)) := by
  have hle : n ≤ 32767 := by
    simp only [ramSize] at hroom
    omega
  have hanswer : answerAt m.heapEnd (saturate n) = .ok (saturate m.heapEnd) := by
    rw [answerAt_eq_ok, toNatClampNeg_saturate hle]
    exact ⟨saturate_nonneg n, hroom, rfl⟩
  have hsize : blockSize? .memoryAlloc (m.word sp) = some (saturate n) := by
    rw [hn]
    rfl
  refine ⟨?_, ?_⟩
  · rw [request?_eq, asked?_of_alloc hi (builtin?_text .memoryAlloc) hsp hlt, hn, Option.map_some,
      hanswer]
  · obtain ⟨m₁, hrun, -, hsame⟩ := run_runRoutine_granted (m := m.next) hsize hanswer
    rw [← hsame rfl]
    exact run_step_builtin hi (builtin?_text .memoryAlloc) hsp hlt hrun

theorem run_step_bind (hi : m.instruction? = some (.pop .pointer 0))
    (hsp : m.word 0 = saturate (sp + 1)) (hlt : sp < 32767) :
    step.run m = .ok none ((m.next.lowered sp).put 3 ((m.lowered sp).word sp)) := by
  have htop : (address (m.word 0 - 1)).run m.next = .ok sp m.next := by
    rw [hsp, saturate_succ_sub hlt]
    exact run_address_saturate _ (by omega)
  have hne : m.word 0 ≠ -32768 := hsp ▸ saturate_ne_minimum _
  rw [run_step hi]
  simp only [perform, run_bind,
    run_pop (m := m.next) hne htop (by simp only [ramSize]; omega), writeElement, locate,
    run_pure, pointerBase, run_setCell _ _ (show 3 + 0 < ramSize by decide)]
  rfl

theorem word_of_run_push {value : Word} {u : Unit} (h : (push value).run m = .ok u m') :
    m'.word 0 = m.word 0 + 1 := by
  by_cases hlt : (m.word 0).toInt.natAbs < ramSize
  · by_cases hmax : m.word 0 = 32767
    · simp only [push, run_bind, run_register, Register.address, run_setCell _ _ hlt, if_pos hmax,
        run_throw, reduceCtorEq] at h
    · rw [run_push value hlt hmax] at h
      cases h
      rw [word_put_of_lt _ _ (by decide), if_pos rfl]
  · simp only [push, run_bind, run_register, Register.address, setCell, if_neg hlt, run_throw,
      reduceCtorEq] at h

/-- A number that has been pushed has taken one cell. -/
theorem word_of_run_step_constant (hi : m.instruction? = some (.push .constant n))
    (hrun : step.run m = .ok none m') :
    m'.word 0 = m.word 0 + 1 ∧ m'.program = m.program ∧ m'.pc = m.pc + 1 := by
  rw [run_step hi] at hrun
  obtain ⟨value, m₁, hread, hrest⟩ := exists_of_run_bind hrun
  obtain ⟨u, m₂, hpush, hpure⟩ := exists_of_run_bind hrest
  cases hread
  cases hpure
  have hkept := (contained_push (saturate n)).kept hpush
  have hword := word_of_run_push hpush
  exact ⟨hword, hkept.program, hkept.pc⟩

/-- A call of `Memory.alloc` that succeeds had its argument on the stack, and memory for it. -/
theorem exists_of_run_step_alloc (hi : m.instruction? = some Routine.memoryAlloc.call)
    (hrun : step.run m = .ok none m') : ∃ sp, m.word 0 = saturate (sp + 1) ∧ sp < 32767 ∧
      m.heapEnd + (m.word sp).toNatClampNeg < ramSize := by
  obtain ⟨sp, hsp, hlt⟩ : ∃ sp, m.word 0 = saturate (sp + 1) ∧ sp < 32767 := by
    obtain ⟨f, -, hfault⟩ | hfirst := exists_first Routine.memoryAlloc.text 1 m.next
    · rw [run_step hi, Routine.call, perform, run_bind] at hrun
      simp [Routine.arity, hfault] at hrun
    · exact hfirst
  have hasked := asked?_of_alloc hi (builtin?_text .memoryAlloc) hsp hlt
  cases hanswer : answerAt m.heapEnd (m.word sp) with
  | error f => simp [run_step_refused hasked hanswer] at hrun
  | ok start => exact ⟨sp, hsp, hlt, (answerAt_eq_ok.1 hanswer).2.1⟩

/-- Numbers that are too large for a word are too large for the memory, too. -/
theorem room_of_saturate {base : Nat} (hpos : 0 < base)
    (hroom : base + (saturate n).toNatClampNeg < ramSize) : base + n < ramSize := by
  have hn : n ≤ 32767 := by
    by_contra hgt
    have hmax : (saturate n).toNatClampNeg = 32767 := by
      rw [saturate, Nat.min_eq_right (by omega)]
      rfl
    simp only [hmax, ramSize] at hroom
    omega
  rwa [toNatClampNeg_saturate hn] at hroom

section Make

variable (hcode : Placed m.program m.pc (bindObject n .constructor))

include hcode

/-- With a stack pointer above zero, the block is asked for and bound. -/
theorem walk_make (hsp : m.word 0 = saturate sp) (hpos : 0 < sp) (hlt : sp < 32767)
    (hroom : m.heapEnd + n < ramSize) : ∃ m', Walk 3 m m' ∧
      (∀ m₀ log, Ledger m₀ log m →
        Ledger m₀ (log ++ [⟨m.pc + 1, saturate n, .ok (saturate m.heapEnd)⟩]) m') ∧
      m'.word 3 = saturate m.heapEnd ∧ m'.word 0 = saturate sp ∧ m'.pc = m.pc + 3 := by
  obtain ⟨hpush, halloc, hpop, -⟩ := hcode
  have hi : m.instruction? = some (.push .constant n) := hpush
  have hstep₁ := run_step_constant hi hsp hlt
  have hi₁ : (m.next.pushed sp (saturate n)).instruction? = some Routine.memoryAlloc.call := halloc
  obtain ⟨hrequest, hstep₂⟩ := run_step_alloc hi₁
    (by rw [word_pushed _ _ (by omega), if_pos rfl]) hlt
    (by rw [word_pushed _ _ (by omega), if_neg (by omega), if_pos rfl]) hroom
  generalize hm₂ : ((m.next.pushed sp (saturate n)).next.taken (saturate n)).pushed sp
    (saturate (m.next.pushed sp (saturate n)).heapEnd) = m₂ at hstep₂
  have hi₂ : m₂.instruction? = some (.pop .pointer 0) := by
    rw [← hm₂]
    exact hpop
  have hpc : m₂.pc = m.pc + 2 := by
    rw [← hm₂]
    rfl
  have htop : (m₂.lowered sp).word sp = saturate m.heapEnd := by
    rw [word_lowered, if_neg (by omega), ← hm₂, word_pushed _ _ (by omega), if_neg (by omega),
      if_pos rfl]
    rfl
  have hstep₃ := run_step_bind hi₂ (by rw [← hm₂, word_pushed _ _ (by omega), if_pos rfl]) hlt
  rw [htop] at hstep₃
  refine ⟨_, .step (by simp [hi]) hstep₁ (.step (by simp [hi₁, Routine.call]) hstep₂
    (.single (by simp [hi₂]) hstep₃)), fun m₀ log h => ?_, ?_, ?_, congrArg (· + 1) hpc⟩
  · have h₂ := (h.quiet (asked?_of_ne hi (by simp)) hstep₁).step hstep₂
    rw [hrequest] at h₂
    exact h₂.quiet (asked?_of_ne hi₂ (by simp)) hstep₃
  · rw [word_put_of_lt _ _ (by decide), if_pos rfl]
  · rw [word_put_of_lt _ _ (by decide), if_neg (by decide), word_lowered, if_pos rfl]

/-- With a stack pointer of zero, what is pushed is the stack pointer: one cell is asked for, and its
address is lost. -/
theorem walk_make_low (hsp : m.word 0 = 0) (hroom : m.heapEnd + 1 < ramSize) :
    ∃ m', Walk 3 m m' ∧ m'.word 3 = 0 := by
  obtain ⟨hpush, halloc, hpop, -⟩ := hcode
  have hi : m.instruction? = some (.push .constant n) := hpush
  have hzero : m.word 0 = saturate 0 := hsp
  have hstep₁ := run_step_constant hi hzero (by decide)
  have hi₁ : (m.next.pushed 0 (saturate n)).instruction? = some Routine.memoryAlloc.call := halloc
  have hword : ∀ (m : Machine) (w : Word), (m.pushed 0 w).word 0 = saturate 1 := fun m w => by
    rw [word_pushed _ _ (by decide), if_pos rfl]
  obtain ⟨-, hstep₂⟩ := run_step_alloc (n := 1) hi₁ (hword _ _) (by decide) (hword _ _) hroom
  have hi₂ : (((m.next.pushed 0 (saturate n)).next.taken (saturate 1)).pushed 0
      (saturate (m.next.pushed 0 (saturate n)).heapEnd)).instruction? = some (.pop .pointer 0) := hpop
  have hstep₃ := run_step_bind hi₂ (hword _ _) (by decide)
  refine ⟨_, .step (by simp [hi]) hstep₁ (.step (by simp [hi₁, Routine.call]) hstep₂
    (.single (by simp [hi₂]) hstep₃)), ?_⟩
  rw [word_put_of_lt _ _ (by decide), if_pos rfl, word_lowered, if_pos rfl]
  rfl

/-- Who has come through did have a stack pointer above zero, and the memory. -/
theorem room_of_walk_make (h0 : m.word 0 ≠ 0) (hheap : 0 < m.heapEnd) (hw : Walk 3 m m') :
    ∃ sp, m.word 0 = saturate sp ∧ 0 < sp ∧ sp < 32767 ∧ m.heapEnd + n < ramSize := by
  obtain ⟨hpush, halloc, -⟩ := hcode
  have hi : m.instruction? = some (.push .constant n) := hpush
  cases hw with
  | @step _ _ m₁ _ _ hstep₁ hw =>
  cases hw with
  | @step _ _ m₂ _ _ hstep₂ _ =>
  obtain ⟨hword, hprogram, hpc⟩ := word_of_run_step_constant hi hstep₁
  have hi₁ : m₁.instruction? = some Routine.memoryAlloc.call := by
    rw [instruction?, hprogram, hpc]
    exact halloc
  obtain ⟨sp, hsp₁, hlt, hroom⟩ := exists_of_run_step_alloc hi₁ hstep₂
  have hsp : m.word 0 = saturate sp := by
    rw [← saturate_succ_sub hlt, ← hsp₁, hword]
    exact (Int16.add_sub_cancel _ _).symm
  have hpos : 0 < sp := by
    refine Nat.pos_of_ne_zero ?_
    rintro rfl
    exact h0 hsp
  -- above zero, the number on the stack is the one that was pushed
  rw [run_step_constant hi hsp hlt] at hstep₁
  cases hstep₁
  rw [word_pushed _ _ (by omega), if_neg (by omega), if_pos rfl] at hroom
  exact ⟨sp, hsp, hpos, hlt, room_of_saturate hheap hroom⟩

/-- Every constructor that begins with a stack pointer other than zero, and comes through, binds a
block of its own that has a cell for each field. -/
theorem binds_of_walk (h : Ledger m₀ log m) (hheap : m₀.heapEnd = heapBase) (h0 : m.word 0 ≠ 0)
    (hw : Walk 3 m m') : Binds m₀ log (m.pc + 1) n m' := by
  have hlow : heapBase ≤ m.heapEnd := by
    rw [h.heapEnd, hheap]
    exact Nat.le_add_right _ _
  simp only [heapBase] at hlow
  obtain ⟨sp, hsp, hpos, hlt, hroom⟩ := room_of_walk_make hcode h0 (by omega) hw
  obtain ⟨m₁, hw₁, hledger, hthis, -⟩ := walk_make hcode hsp hpos hlt hroom
  -- there is only one walk, so this is it
  obtain rfl := hw₁.unique hw
  simp only [ramSize] at hroom
  have hstart : (saturate m.heapEnd).toNatClampNeg = m.heapEnd := toNatClampNeg_saturate (by omega)
  have hsize : (saturate n).toNatClampNeg = n := toNatClampNeg_saturate (by omega)
  refine ⟨_, ⟨m.heapEnd, n⟩, hledger m₀ log h, rfl, ?_, rfl, hthis⟩
  simp only [Request.block?, hstart, hsize]

end Make

/-! ## Assignments to fields -/

theorem pop_cases (m : Machine) : (∃ f : Fault, pop.run m = .error f m) ∨
    ∃ top ≤ 32767, pop.run m = .ok ((m.lowered top).word top) (m.lowered top) := by
  by_cases hmin : m.word 0 = -32768
  · exact .inl ⟨.overrun, by simp only [pop, run_bind, run_register, Register.address, if_pos hmin,
      run_throw]⟩
  rcases Int16.lt_or_le (m.word 0 - 1) 0 with hneg | hpos
  · exact .inl ⟨_, by simp only [pop, run_bind, run_register, Register.address, if_neg hmin,
      run_address_of_neg _ hneg]; rfl⟩
  · obtain ⟨top, hle, htop⟩ := exists_saturate hpos
    refine .inr ⟨top, hle, run_pop hmin ?_ (by simp only [ramSize]; omega)⟩
    rw [htop]
    exact run_address_saturate m hle

section Assign

variable {i base : Nat} (hi : m.instruction? = some (.pop .this i))
  (hthis : m.word 3 = saturate base) (hle : base + i ≤ 32767)

include hthis hle

theorem run_locate_this : (locate i .this).run (m.next.lowered sp) =
    .ok (.memory (base + i)) (m.next.lowered sp) := by
  have hthis' : (m.next.lowered sp).word 3 = saturate base := by
    rw [word_lowered, if_neg (by decide)]
    exact hthis
  exact run_locate_of_base rfl hthis' (by omega)

include hi

/-- No cell is written but that of the field, and the stack pointer. -/
theorem word_after_assign {a : Nat} (h0 : a ≠ 0) (ha : a ≠ base + i) :
    (after Machine.step m).word a = m.word a := by
  rw [after, run_step hi, perform, run_bind]
  obtain ⟨f, hpop⟩ | ⟨top, -, hpop⟩ := pop_cases m.next
  · rw [hpop]
    rfl
  · simp only [hpop, run_bind, run_writeElement (run_locate_this hthis hle) _ hle, run_pure, left]
    rw [word_put_of_lt _ _ hle, if_neg (Ne.symm ha), word_lowered, if_neg h0]
    rfl

theorem run_step_assign (hsp : m.word 0 = saturate (sp + 1)) (hpos : 0 < sp) (hlt : sp < 32767) :
    step.run m = .ok none ((m.next.lowered sp).put (base + i) (m.word sp)) :=
  run_step_pop hi (run_locate_this hthis hle) hle hsp hpos hlt

end Assign

/-- The step stores to a cell of the block, which lies in no other block, and nowhere else. -/
structure Assigns (log : List Request) (b : HeapBlock) (i : Nat) (m : Machine) : Prop where
  inside : b.start + i ∈ b
  apart : ∀ b' ∈ blocksOf log, b' ≠ b → b.start + i ∉ b'
  others : ∀ a, a ≠ 0 → a ≠ b.start + i → (after Machine.step m).word a = m.word a
  value : ∀ sp, 0 < sp → sp < 32767 → m.word 0 = saturate (sp + 1) →
    ∃ m', step.run m = .ok none m' ∧ m'.word (b.start + i) = m.word sp

theorem Ledger.assigns {i : Nat} {b : HeapBlock} (h : Ledger m₀ log m) (hb : b ∈ blocksOf log)
    (hlt : i < b.size) (hi : m.instruction? = some (.pop .this i))
    (hthis : m.word 3 = saturate b.start) : Assigns log b i m := by
  have hinside : b.start + i ∈ b := by
    rw [HeapBlock.mem_iff]
    omega
  obtain ⟨-, -, hroom⟩ := h.answered.blocks.2 b hb
  simp only [ramSize] at hroom
  have hle : b.start + i ≤ 32767 := by omega
  refine ⟨hinside, fun b' hb' hne hin => ?_, fun a h0 ha => word_after_assign hi hthis hle h0 ha,
    fun sp hpos hhigh hsp => ⟨_, run_step_assign hi hthis hle hsp hpos hhigh, ?_⟩⟩
  · exact h.disjoint.forall hb hb' hne.symm _ hinside hin
  · rw [word_put_of_lt _ _ hle, if_pos rfl]

/-! ## All runs -/

/-- The `function` instruction of a constructor leads to where the object is made. -/
theorem placed_of_begins (h : BeginsConstructor ks k m.pc)
    (hprogram : m.program = .ofInstructions (ks.flatMap (·.code)))
    (hstep : step.run m = .ok none m₁) :
    m.asked? = none ∧ m₁.pc = m.pc + 1 ∧
      Placed m₁.program m₁.pc (bindObject k.fields.length .constructor) := by
  obtain ⟨name, count, hcode⟩ := h.placed
  rw [← hprogram] at hcode
  obtain ⟨hfunction, hmake⟩ := hcode
  have hi : m.instruction? = some (.function name count) := hfunction
  rw [run_step hi] at hstep
  have hkept : Kept m.next m₁ := (contained_perform (i := .function name count) trivial).kept hstep
  have hpc : m₁.pc = m.pc + 1 := hkept.pc
  have hsame : m₁.program = m.program := hkept.program
  exact ⟨asked?_of_ne hi (by simp), hpc, by rw [hpc, hsame]; exact hmake⟩

/-- Over all the runs of compiled classes: the blocks that have been handed out are disjoint and lie in
the heap; a constructor whose stack pointer is not zero binds a block with a cell for each field of
its class, which is handed out to it there and then; what goes through `this` accesses a field, at
the index of its declaration. So an assignment to a field, with `this` at the start of a block as
large as the objects of the class, stores into that block and into no other one. -/
theorem objects_apart {sources texts : List String} (hc : sources.mapM compileText = .ok texts)
    (hks : List.Forall₂ (fun source k => k.Compiles (.ofString source)) sources ks)
    (hl : load (String.join texts) = .ok m₀) :
    (∀ m, Running m₀ m → ∃ log, Ledger m₀ log m) ∧
    (∀ log m, Ledger m₀ log m →
      (blocksOf log).Pairwise HeapBlock.Disjoint ∧
      (∀ b ∈ blocksOf log, ∀ a ∈ b, 2048 ≤ a ∧ a ≤ 32766) ∧
      (∀ r, m.request? = some r →
        (∀ m', step.run m = .ok none m' → ∃ b, r.block? = some b) ∧
        ∀ b sp, r.block? = some b → 0 < sp → sp < 32767 → m.word 0 = saturate (sp + 1) →
          ∃ m', step.run m = .ok none m' ∧ m'.word sp = saturate b.start) ∧
      (∀ k m₁, BeginsConstructor ks k m.pc → step.run m = .ok none m₁ → m₁.word 0 ≠ 0 →
        (∀ m', Walk 3 m₁ m' → Binds m₀ log (m.pc + 2) k.fields.length m') ∧
        (0 < m₁.word 0 → m₁.word 0 < 32767 → m₁.heapEnd + k.fields.length < 32768 →
          ∃ m', Walk 3 m₁ m')) ∧
      ∀ k b i, LiesInClass ks k m.pc → m.instruction? = some (.pop .this i) → b ∈ blocksOf log →
        b.size = k.fields.length → m.word 3 = saturate b.start → Assigns log b i m) ∧
    ∀ k ∈ ks, ∀ j ∈ k.code, ∀ i, j = .push .this i ∨ j = .pop .this i →
      ∃ d ∈ k.subroutines, ∃ s ∈ (bindings k d).visible, s.kind = .field ∧ s.index = i ∧
        k.fields[i]? = some s.name := by
  obtain rfl : ks.map (fun k => Instruction.listing k.code) = texts :=
    Except.ok.inj ((mapM_compileText hks).symm.trans hc)
  rw [join_listing] at hl
  have hheap := heapEnd_of_load hl
  obtain ⟨-, rfl⟩ := (load_classes (exists_compiles hks)).1 hl
  refine ⟨fun m h => h.exists_ledger, fun log m h => ⟨h.disjoint,
    fun b hb a ha => h.within hheap hb ha, fun r hr => ⟨fun m' hrun => exists_block hr hrun,
      fun b sp hb hpos hlt hsp => run_step_block hr hb hpos hlt hsp⟩,
    fun k m₁ hbegins hstep h0 => ?_, fun k b i hlies hi hb hsize hthis => ?_⟩,
    fun k _ j hj i hthis => exists_field hj hthis⟩
  · obtain ⟨hquiet, hpc, hcode⟩ := placed_of_begins hbegins h.program hstep
    have h₁ := h.quiet hquiet hstep
    refine ⟨fun m' hw => ?_, fun hpos hlt hroom => ?_⟩
    · have hbinds := binds_of_walk hcode h₁ hheap h0 hw
      rwa [hpc] at hbinds
    · obtain ⟨sp, hle, hsp⟩ := exists_saturate (Int16.le_of_lt hpos)
      have hint := toInt_saturate hle
      rw [Int16.lt_iff_toInt_lt, hsp, hint] at hpos hlt
      have hpos' : 0 < sp := Int.natCast_pos.1 hpos
      have hlt' : sp < 32767 := Int.ofNat_lt.1 hlt
      obtain ⟨m', hw, -⟩ := walk_make hcode hsp hpos' hlt' hroom
      exact ⟨m', hw⟩
  · have hcode : (ks.flatMap (·.code))[m.pc]? = some (.pop .this i) := by
      rw [instruction?, h.program] at hi
      exact (List.getElem?_toArray).symm.trans hi
    obtain ⟨d, -, s, -, -, -, hname⟩ := exists_field (hlies.mem hcode).2 (.inr rfl)
    have hlt := (List.getElem?_eq_some_iff.1 hname).1
    exact h.assigns hb (hsize ▸ hlt) hi hthis

/-! ## An object, and one that has no block -/

theorem compileText_hoard :
    [hoardSource].mapM compileText = .ok [Instruction.listing hoardCode] := by
  rw [← hoardClass_code]
  exact mapM_compileText (.cons hoardClass_compiles .nil)

theorem beginsConstructor_hoard : BeginsConstructor [hoardClass] hoardClass 0 :=
  ⟨[], _, hoardNew, 0, 0, rfl, by simp, by simp [hoardClass], rfl, rfl⟩

theorem program_hoard (h : Ledger (ofProgram hoardProgram) log m) :
    m.program = .ofInstructions ([hoardClass].flatMap (·.code)) := by
  rw [List.flatMap_singleton, hoardClass_code]
  exact h.program

/-- An object is made, and its second field is assigned to. -/
theorem objects_apart_new : ∃ r b m, Ledger (ofProgram hoardProgram) [r] m ∧ r.place = 2 ∧
    r.block? = some b ∧ b.size = 2 ∧ m.instruction? = some (.pop .this 1) ∧ Assigns [r] b 1 m := by
  have hapart := (objects_apart compileText_hoard (List.forall₂_cons.2 ⟨hoardClass_compiles, .nil⟩)
    load_hoard).2.1
  obtain ⟨m, henter, hpc, hsp, -⟩ := exists_entered functions_hoard.1
  have h := Ledger.first henter
  have hentry := run_step_entry (instruction?_hoard h.program (by rw [hpc]; rfl))
  have hbegins : BeginsConstructor [hoardClass] hoardClass m.pc := hpc ▸ beginsConstructor_hoard
  have hroom : m.next.heapEnd + hoardClass.fields.length < ramSize := by
    have hend : m.next.heapEnd = 2048 := h.heapEnd
    rw [hend]
    decide
  -- the object is made
  obtain ⟨m₁, hw, -, -, hsp₁, hpc₁⟩ := walk_make
    (placed_of_begins hbegins (program_hoard h) hentry).2.2 ((word_next m 0).trans hsp) (by decide)
    (by decide) hroom
  have hne : m.next.word 0 ≠ 0 := by
    rw [word_next, hsp]
    decide
  obtain ⟨r, b, h₁, hplace, hblock, hsize, hthis⟩ :=
    ((hapart [] m h).2.2.2.1 hoardClass m.next hbegins hentry hne).1 m₁ hw
  rw [hpc] at hplace
  have hpc₁ : m₁.pc = 4 := by
    rw [hpc₁, next, hpc]
  -- and assigned to
  have hi₁ := instruction?_hoard h₁.program (i := .push .constant 7) (by rw [hpc₁]; rfl)
  have h₂ := h₁.quiet (asked?_of_ne hi₁ (by simp)) (run_step_constant hi₁ hsp₁ (by decide))
  have hpc₂ : (m₁.next.pushed 256 (saturate 7)).pc = 5 := congrArg (· + 1) hpc₁
  have hi₂ := instruction?_hoard h₂.program (i := .pop .this 1) (by rw [hpc₂]; rfl)
  have hthis₂ : (m₁.next.pushed 256 (saturate 7)).word 3 = saturate b.start := by
    rw [word_pushed _ _ (by decide), if_neg (by decide), if_neg (by decide)]
    exact hthis
  have hlies : LiesInClass [hoardClass] hoardClass (m₁.next.pushed 256 (saturate 7)).pc := by
    rw [hpc₂]
    exact ⟨[], [], rfl, by decide, by decide⟩
  have hmem : b ∈ blocksOf [r] := by simp [blocksOf, hblock]
  exact ⟨r, b, _, h₂, hplace, hblock, hsize, hi₂,
    (hapart _ _ h₂).2.2.2.2 hoardClass b 1 hlies hi₂ hmem hsize hthis₂⟩

/-- A function that stores through `this`, with no object bound, stores to the stack pointer. -/
theorem exists_walk_low : ∃ m m', (enterFunction "A.low" 0 none).run (ofProgram hoardProgram) =
    .ok () m ∧ Walk 3 m m' ∧ Ledger (ofProgram hoardProgram) [] m' ∧ m'.pc = 11 ∧
      m'.word 0 = saturate 0 := by
  obtain ⟨m, henter, hpc, hsp, hthis⟩ := exists_entered functions_hoard.2.1
  have h := Ledger.first henter
  have hi := instruction?_hoard h.program (i := .function "A.low" 0) (by rw [hpc]; rfl)
  have hstep := run_step_entry hi
  have h₁ := h.quiet (asked?_of_ne hi (by simp)) hstep
  have hpc₁ : m.next.pc = 9 := congrArg (· + 1) hpc
  have hi₁ := instruction?_hoard h₁.program (i := .push .constant 0) (by rw [hpc₁]; rfl)
  have hstep₁ := run_step_constant hi₁ ((word_next m 0).trans hsp) (by decide)
  have h₂ := h₁.quiet (asked?_of_ne hi₁ (by simp)) hstep₁
  have hword : ∀ a, (m.next.next.pushed 256 (saturate 0)).word a =
      if a = 0 then saturate 257 else if a = 256 then saturate 0 else m.word a :=
    fun a => word_pushed _ _ (by decide)
  have hpc₂ : (m.next.next.pushed 256 (saturate 0)).pc = 10 := congrArg (· + 1) hpc₁
  have hi₂ := instruction?_hoard h₂.program (i := .pop .this 0) (by rw [hpc₂]; rfl)
  have hstep₂ := run_step_assign hi₂ ((hword 3).trans hthis) (by decide) (hword 0) (by decide)
    (by decide)
  refine ⟨m, _, henter, .step (by simp [hi]) hstep (.step (by simp [hi₁]) hstep₁
    (.single (by simp [hi₂]) hstep₂)), h₂.quiet (asked?_of_ne hi₂ (by simp)) hstep₂,
    congrArg (· + 1) hpc₂, ?_⟩
  rw [word_put_of_lt _ _ (by decide), if_pos rfl, hword, if_neg (by decide), if_pos rfl]

/-- And it calls the constructor then. -/
theorem exists_ledger_low : ∃ m, Running (ofProgram hoardProgram) m ∧
    Ledger (ofProgram hoardProgram) [] m ∧ m.pc = 0 ∧ m.word 0 = 0 := by
  obtain ⟨m, m', henter, hw, h, hpc, hsp⟩ := exists_walk_low
  have hi := instruction?_hoard h.program (i := .call "A.new" 0) (by rw [hpc]; rfl)
  have hentry : m'.program.functions["A.new"]? = some 0 := by
    rw [← functions_hoard.1]
    exact congrArg (·.functions["A.new"]?) h.program
  have hfirst : m'.word 0 = saturate (0 + 0) := hsp
  have hstep := run_step_function hfirst (by decide) hi (by decide) hentry
  have hasked : m'.asked? = none := by
    simp only [asked?, hi, hsp]
    rfl
  exact ⟨_, ((Running.enter .loaded henter).walk hw).step hstep, h.quiet hasked hstep, rfl,
    (word_entered _ _ _ _ _ 0).trans hsp⟩

/-- A constructor that is called with the stack pointer at zero binds no object. -/
theorem not_binds_low : ¬∀ (sources texts : List String) (ks : List ClassDeclaration)
    (m₀ m m₁ m' : Machine) (log : List Request) (k : ClassDeclaration),
    sources.mapM compileText = .ok texts →
    List.Forall₂ (fun source k => k.Compiles (.ofString source)) sources ks →
    (ks.map (·.name)).Nodup → load (String.join texts) = .ok m₀ → Running m₀ m →
    Ledger m₀ log m → BeginsConstructor ks k m.pc → Machine.step.run m = .ok none m₁ → Walk 3 m₁ m' →
    Binds m₀ log (m.pc + 2) k.fields.length m' := by
  intro hall
  obtain ⟨m, hr, h, hpc, hsp⟩ := exists_ledger_low
  have hbegins : BeginsConstructor [hoardClass] hoardClass m.pc := hpc ▸ beginsConstructor_hoard
  have hentry := run_step_entry (instruction?_hoard h.program (by rw [hpc]; rfl))
  have hroom : m.next.heapEnd + 1 < ramSize := by
    have hend : m.next.heapEnd = 2048 := h.heapEnd
    rw [hend]
    decide
  obtain ⟨m', hw, hthis⟩ := walk_make_low (placed_of_begins hbegins (program_hoard h) hentry).2.2
    ((word_next m 0).trans hsp) hroom
  obtain ⟨r, b, h', -, hblock, -, hthis'⟩ := hall _ _ _ _ m m.next m' [] hoardClass compileText_hoard
    (List.forall₂_cons.2 ⟨hoardClass_compiles, .nil⟩) (by simp) load_hoard hr h hbegins hentry hw
  obtain ⟨hlow, -, hlt⟩ := h'.answered.blocks.2 b (by simp [blocksOf, hblock])
  have hlow : 2048 ≤ b.start := hlow
  simp only [ramSize] at hlt
  have hzero := saturate_inj (k := 0) (by omega) (by omega) (hthis'.symm.trans hthis)
  omega

end Machine

end Jack

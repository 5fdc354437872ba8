import Jack.Proofs.Requests

/-!
# What a step takes from the heap

Only a call of `Memory.alloc`, `Array.new` or `String.new` can move the end of the heap
(`heapEnd_of_not_asked`). Such a step asks for a block of some size (`asked?`). It fails if the size
is negative, and then takes nothing; otherwise it takes the cells, and fails afterwards if they are
not there (`run_step_refused`, `run_step_granted`).
-/

namespace Jack.Machine

variable {α β : Type} {m m' : Machine} {sp n : Nat}

/-! ## Leaving the heap alone -/

/-- Whatever becomes of the computation, the heap ends where it did. -/
def Sparing (x : Exec α) : Prop := ∀ m, (after x m).heapEnd = m.heapEnd

section Sparing

variable {x : Exec α} {f : α → Exec β}

theorem Sparing.bind (hx : Sparing x) (hf : ∀ a, Sparing (f a)) : Sparing (x >>= f) := by
  intro m
  have hm := hx m
  unfold after at hm ⊢
  rw [run_bind]
  cases hrun : x.run m with
  | error e m₁ => rwa [hrun] at hm
  | ok a m₁ =>
    rw [hrun] at hm
    exact (hf a m₁).trans hm

theorem Silent.sparing (hx : Silent x) : Sparing x := by
  intro m
  obtain ⟨a, ha⟩ | ⟨e, -, he⟩ := hx m
  · rw [after, ha, left]
  · rw [after, he, left]

theorem sparing_throw (fault : Fault) : Sparing (throw fault : Exec α) := fun _ => rfl

theorem sparing_pure (a : α) : Sparing (pure a : Exec α) := fun _ => rfl

theorem sparing_modify {g : Machine → Machine} (h : ∀ m, (g m).heapEnd = m.heapEnd) :
    Sparing (modify g : Exec PUnit) := h

theorem Sparing.map (g : α → β) (h : Sparing x) : Sparing (g <$> x) := by
  rw [map_eq_pure_bind]
  exact h.bind fun a => sparing_pure _

end Sparing

theorem sparing_setCell (a : Nat) (value : Word) : Sparing (setCell a value) := by
  unfold setCell
  split
  · exact sparing_modify fun _ => rfl
  · exact sparing_throw _

theorem sparing_push (value : Word) : Sparing (push value) := by
  refine (silent_cell _).sparing.bind fun sp => (sparing_setCell _ _).bind fun _ => ?_
  split
  · exact (sparing_throw _).bind fun _ => sparing_setCell _ _
  · exact sparing_setCell _ _

theorem sparing_pop : Sparing pop := by
  have hrest : ∀ sp, Sparing (do
      let top ← address (sp - 1)
      setRegister .sp (saturate top)
      cell top) := fun sp =>
    (silent_address _).sparing.bind fun top =>
      (sparing_setCell _ _).bind fun _ => (silent_cell top).sparing
  refine (silent_cell _).sparing.bind fun sp => ?_
  split
  · exact (sparing_throw _).bind fun _ => hrest sp
  · exact hrest sp

theorem sparing_writeElement (segment : Segment) (index : Nat) (value : Word) :
    Sparing (writeElement segment index value) := by
  refine (silent_locate index segment).sparing.bind fun place => ?_
  cases place with
  | constant => exact sparing_throw _
  | staticVar => exact sparing_modify fun _ => rfl
  | memory => exact sparing_setCell _ _

theorem sparing_unary (f : Word → Word) : Sparing (unary f) :=
  sparing_pop.bind fun _ => sparing_push _

theorem sparing_binary (f : Word → Word → Word) : Sparing (binary f) :=
  sparing_pop.bind fun _ => sparing_pop.bind fun _ => sparing_push _

theorem sparing_pushLocals (count : Nat) : Sparing (pushLocals count) := by
  induction count with
  | zero => exact sparing_pure _
  | succ count ih => exact (sparing_push 0).bind fun _ => ih

theorem sparing_jumpTo (label : String) : Sparing (jumpTo label) := by
  intro m
  rw [after, run_jumpTo_eq]
  split <;> rfl

theorem sparing_enterFunction (name : String) (count : Nat) (returnAddress : Option Nat) :
    Sparing (enterFunction name count returnAddress) := by
  intro m
  unfold after
  cases hf : m.program.functions[name]? with
  | none => rw [run_enterFunction_of_none count returnAddress hf, left]
  | some entry =>
    rw [run_enterFunction count returnAddress hf]
    rfl

theorem sparing_popFrame : Sparing popFrame := by
  intro m
  simp only [after, popFrame, run_bind, run_get]
  cases m.frames <;> rfl

theorem sparing_leaveFunction : Sparing leaveFunction := by
  have hrestore : ∀ value frame, Sparing (restore value frame) := fun value frame =>
    (silent_cell _).sparing.bind fun w => (silent_address w).sparing.bind fun arg =>
      (sparing_setCell arg value).bind fun _ => (sparing_setCell _ _).bind fun _ =>
        (sparing_setCell _ _).bind fun _ => (sparing_setCell _ _).bind fun _ =>
          (sparing_setCell _ _).bind fun _ => sparing_setCell _ _
  have hresume : ∀ value frame, Sparing (resume value frame) := by
    intro value frame m
    simp only [after, resume, run_bind, run_modify]
    cases frame.returnAddress <;> rfl
  rw [leaveFunction_eq]
  exact sparing_pop.bind fun value => sparing_popFrame.bind fun frame =>
    (hrestore value frame).bind fun _ => hresume value frame

theorem sparing_appendChar (string c : Word) : Sparing (appendChar string c) :=
  (silent_address string).sparing.bind fun base => (silent_cell base).sparing.bind fun w =>
    (silent_address w).sparing.bind fun _ => (sparing_setCell _ c).bind fun _ =>
      (silent_cell base).sparing.bind fun _ => (sparing_setCell base _).bind fun _ =>
        sparing_pure _

theorem sparing_perform {i : Instruction} (h : ∀ name count, i ≠ .call name count) :
    Sparing (perform i) := by
  have hdone : ∀ {x : Exec Unit}, Sparing x → Sparing (do x; return none : Exec (Option Word)) :=
    fun hx => hx.bind fun _ => sparing_pure none
  cases i with
  | push segment index =>
    exact (silent_readElement segment index).sparing.bind fun value => hdone (sparing_push value)
  | pop segment index =>
    exact sparing_pop.bind fun value => hdone (sparing_writeElement segment index value)
  | command action =>
    cases action with
    | ret => exact sparing_leaveFunction
    | neg | not => exact hdone (sparing_unary _)
    | _ => exact hdone (sparing_binary _)
  | label name => exact sparing_pure none
  | function name count => exact hdone (sparing_pushLocals count)
  | goto name => exact hdone (sparing_jumpTo name)
  | ifGoto name =>
    refine sparing_pop.bind fun value => ?_
    split
    · exact hdone (sparing_jumpTo name)
    · exact sparing_pure none
  | call name count => exact absurd rfl (h name count)

/-! ## Asking for a block -/

/-- The size of the block that a routine takes from the heap, a string having a cell for its
length. -/
def blockSize? : Routine → Word → Option Word
  | .memoryAlloc, size => some size
  | .stringNew, capacity => some (if capacity = 32767 then 32767 else capacity + 1)
  | _, _ => none

/-- The size of the block that the machine is about to ask for. -/
def asked? (m : Machine) : Option Word :=
  match m.instruction? with
  | some (.call name count) =>
    if 0 < m.word 0 then
      (builtin? name count).bind (blockSize? · (m.word ((m.word 0).toNatClampNeg - 1)))
    else none
  | _ => none

theorem exists_of_asked {size : Word} (h : m.asked? = some size) :
    ∃ name routine sp, m.instruction? = some (.call name 1) ∧ builtin? name 1 = some routine ∧
      m.word 0 = saturate (sp + 1) ∧ sp < 32767 ∧ blockSize? routine (m.word sp) = some size := by
  unfold asked? at h
  split at h
  · rename_i name count hi
    split at h
    · rename_i hpos
      obtain ⟨routine, hr, hsize⟩ := Option.bind_eq_some_iff.1 h
      obtain ⟨top, hle, hsp⟩ := exists_saturate (Int16.le_of_lt hpos)
      have hne : top ≠ 0 := by
        rintro rfl
        rw [hsp] at hpos
        exact absurd hpos (by decide)
      obtain ⟨sp, rfl⟩ := Nat.exists_eq_succ_of_ne_zero hne
      rw [hsp, toNatClampNeg_saturate hle, Nat.succ_sub_one] at hsize
      have hcount : routine.arity = count := by
        simpa using (Option.filter_eq_some_iff.1 hr).2
      have hone : routine.arity = 1 := by
        cases routine <;> simp [blockSize?] at hsize <;> rfl
      obtain rfl := hone.symm.trans hcount
      exact ⟨name, routine, sp, hi, hr, hsp, hle, hsize⟩
    · simp at h
  · simp at h

/-! ## What is answered -/

/-- The answer to a request, if the heap ends there. -/
def answerAt (heapEnd : Nat) (size : Word) : Except Fault Word :=
  if size < 0 then .error (.invalidAddress size.toInt)
  else if ramSize ≤ heapEnd + size.toNatClampNeg then .error .outOfMemory
  else .ok (saturate heapEnd)

theorem answerAt_eq_ok {heapEnd : Nat} {size start : Word} : answerAt heapEnd size = .ok start ↔
    0 ≤ size ∧ heapEnd + size.toNatClampNeg < ramSize ∧ start = saturate heapEnd := by
  unfold answerAt
  rcases Int16.lt_or_le size 0 with hneg | hpos
  · simp [hneg, Int16.not_le.2 hneg]
  · rw [if_neg (Int16.not_lt.2 hpos)]
    rcases Nat.lt_or_ge (heapEnd + size.toNatClampNeg) ramSize with hlt | hge
    · simp [hpos, hlt, Nat.not_le.2 hlt, eq_comm]
    · simp [hge, Nat.not_lt.2 hge]

theorem answerAt_eq_outOfMemory {heapEnd : Nat} {size : Word} :
    answerAt heapEnd size = .error .outOfMemory ↔
      0 ≤ size ∧ ramSize ≤ heapEnd + size.toNatClampNeg := by
  unfold answerAt
  rcases Int16.lt_or_le size 0 with hneg | hpos
  · simp [hneg, Int16.not_le.2 hneg]
  · rw [if_neg (Int16.not_lt.2 hpos)]
    rcases Nat.lt_or_ge (heapEnd + size.toNatClampNeg) ramSize with hlt | hge
    · simp [Nat.not_le.2 hlt]
    · simp [hpos, hge]

theorem toNatClampNeg_of_neg {size : Word} (h : size < 0) : size.toNatClampNeg = 0 := by
  rw [Int16.toNatClampNeg, Int.toNat_eq_zero]
  exact Int.le_of_lt (Int16.lt_iff_toInt_lt.1 h)

/-- The end of the heap is moved before it is looked at; a negative size counts for nothing. -/
def taken (m : Machine) (size : Word) : Machine :=
  { m with heapEnd := m.heapEnd + size.toNatClampNeg }

theorem run_reserve_eq (size : Word) (m : Machine) :
    (reserve size).run m = match answerAt m.heapEnd size with
      | .ok start => .ok start (m.taken size)
      | .error f => .error f (m.taken size) := by
  unfold answerAt taken
  rcases Int16.lt_or_le size 0 with hneg | hpos
  · simp only [reserve, run_bind, run_address_of_neg m hneg, if_pos hneg,
      toNatClampNeg_of_neg hneg, Nat.add_zero]
  · simp only [reserve, run_bind, run_address m hpos, run_get, run_modify,
      if_neg (Int16.not_lt.2 hpos)]
    split <;> rfl

section Routines

variable {routine : Routine} {w size : Word} (hb : blockSize? routine w = some size)

include hb

theorem run_runRoutine_refused {f : Fault} (h : answerAt m.heapEnd size = .error f) :
    (runRoutine routine [w]).run m = .error f (m.taken size) := by
  have hreserve := run_reserve_eq size m
  rw [h] at hreserve
  cases routine <;> simp only [blockSize?, Option.some.injEq, reduceCtorEq] at hb <;>
    subst hb <;> simp only [runRoutine, newString, map_eq_pure_bind, run_bind, hreserve]

theorem run_runRoutine_granted {start : Word} (h : answerAt m.heapEnd size = .ok start) :
    ∃ m₁, (runRoutine routine [w]).run m = .ok (some start) m₁ ∧
      m₁.heapEnd = m.heapEnd + size.toNatClampNeg ∧
      (routine = .memoryAlloc → m₁ = m.taken size) := by
  have hreserve := run_reserve_eq size m
  rw [h] at hreserve
  cases routine <;> simp only [blockSize?, Option.some.injEq, reduceCtorEq] at hb <;> subst hb
  · simp only [runRoutine, map_eq_pure_bind, run_bind, hreserve]
    exact ⟨_, rfl, rfl, fun _ => rfl⟩
  · obtain ⟨-, hlt, rfl⟩ := answerAt_eq_ok.1 h
    have hle : m.heapEnd < ramSize := Nat.lt_of_le_of_lt (Nat.le_add_right _ _) hlt
    simp only [runRoutine, newString, map_eq_pure_bind, run_bind, hreserve,
      run_address_saturate _ (Nat.le_of_lt_succ hle), run_setCell _ _ hle]
    exact ⟨_, rfl, rfl, by simp⟩

end Routines

theorem sparing_runRoutine {routine : Routine} (h : ∀ w, blockSize? routine w = none)
    (arguments : List Word) : Sparing (runRoutine routine arguments) := by
  unfold runRoutine
  split
  · simp [blockSize?] at h
  · simp [blockSize?] at h
  · exact (sparing_appendChar _ _).map _
  · exact sparing_pure _
  · exact (silent_divide _ _).sparing.map _
  · exact sparing_pure _

/-! ## Steps -/

section Steps

variable {name : String} {routine : Routine} (hi : m.instruction? = some (.call name 1))
  (hr : builtin? name 1 = some routine) (hsp : m.word 0 = saturate (sp + 1)) (hlt : sp < 32767)

include hi hr hsp hlt

/-- A call in place with one argument, which may be the very cell of the stack pointer. -/
theorem run_step_builtin {m₁ : Machine} {value : Word}
    (h : (runRoutine routine [m.word sp]).run m.next = .ok (some value) m₁) :
    step.run m = .ok none (m₁.pushed sp value) := by
  have hlow : (m₁.lowered sp).word 0 = saturate sp := by rw [word_lowered, if_pos rfl]
  -- with the argument in cell 0, the stack pointer is written over
  have hpushed : (m₁.lowered sp).pushed sp value = m₁.pushed sp value := by
    rcases Nat.eq_zero_or_pos sp with rfl | hpos
    · simp only [pushed, lowered, put_put]
    · exact lowered_pushed _ (by omega)
  have hcall := run_call_value (m := m.next) hsp (by omega) hr h
  rw [run_step hi]
  simp only [perform, run_bind, hcall, run_setRegister, Register.address]
  rw [← lowered, run_push_of_room value hlow hlt, hpushed]
  rfl

theorem run_step_builtin_error {m₁ : Machine} {f : Fault}
    (h : (runRoutine routine [m.word sp]).run m.next = .error f m₁) : step.run m = .error f m₁ := by
  have hcall := run_call_error (m := m.next) hsp (by omega) hr h
  rw [run_step hi]
  simp only [perform, run_bind, hcall]

end Steps

section Asked

variable {size : Word} (h : m.asked? = some size)

include h

/-- Where the answer is a fault, the step fails with it. -/
theorem run_step_refused {f : Fault} (ha : answerAt m.heapEnd size = .error f) :
    step.run m = .error f (m.next.taken size) := by
  obtain ⟨name, routine, sp, hi, hr, hsp, hlt, hb⟩ := exists_of_asked h
  exact run_step_builtin_error hi hr hsp hlt (run_runRoutine_refused hb ha)

/-- Where the answer is an address, the step puts it on the stack in place of the argument. -/
theorem run_step_granted {start : Word} (ha : answerAt m.heapEnd size = .ok start) :
    ∃ (m₁ : Machine) (sp : Nat), step.run m = .ok none (m₁.pushed sp start) ∧
      m.word 0 = saturate (sp + 1) ∧ sp < 32767 ∧ m₁.heapEnd = m.heapEnd + size.toNatClampNeg := by
  obtain ⟨name, routine, sp, hi, hr, hsp, hlt, hb⟩ := exists_of_asked h
  obtain ⟨m₁, hrun, hheap, -⟩ := run_runRoutine_granted (m := m.next) hb ha
  exact ⟨m₁, sp, run_step_builtin hi hr hsp hlt hrun, hsp, hlt, hheap⟩

theorem heapEnd_of_asked : (after step m).heapEnd = m.heapEnd + size.toNatClampNeg := by
  cases ha : answerAt m.heapEnd size with
  | error f =>
    rw [after, run_step_refused h ha]
    rfl
  | ok start =>
    obtain ⟨m₁, sp, hrun, -, -, hheap⟩ := run_step_granted h ha
    rw [after, hrun]
    exact hheap

end Asked

theorem asked?_of_call {name : String} {count : Nat} (hi : m.instruction? = some (.call name count))
    (hpos : 0 < m.word 0) : m.asked? =
      (builtin? name count).bind (blockSize? · (m.word ((m.word 0).toNatClampNeg - 1))) := by
  simp only [asked?, hi, if_pos hpos]

theorem asked?_of_alloc {name : String} (hi : m.instruction? = some (.call name 1))
    (hr : builtin? name 1 = some .memoryAlloc) (hsp : m.word 0 = saturate (sp + 1))
    (hlt : sp < 32767) : m.asked? = some (m.word sp) := by
  have hpos : 0 < m.word 0 := by
    rw [Int16.lt_iff_toInt_lt, hsp, toInt_saturate hlt]
    exact Int.natCast_pos.2 (Nat.succ_pos sp)
  rw [asked?_of_call hi hpos, hr, hsp, toNatClampNeg_saturate hlt]
  rfl

theorem asked?_of_ne {i : Instruction} (hi : m.instruction? = some i)
    (h : ∀ name count, i ≠ .call name count) : m.asked? = none := by
  rw [asked?, hi]
  cases i with
  | call name count => exact absurd rfl (h name count)
  | _ => rfl

theorem heapEnd_of_call {name : String} {count : Nat}
    (hi : m.instruction? = some (.call name count)) (h : m.asked? = none) :
    (after (call name count) m.next).heapEnd = m.heapEnd := by
  cases hb : builtin? name count with
  | none =>
    obtain ⟨f, -, hrun⟩ | hrun := run_call_of_none hb m.next
    · rw [after, hrun]
      rfl
    · rw [after, hrun]
      exact sparing_enterFunction name count _ m.next
  | some routine =>
    obtain ⟨f, -, hrun⟩ | ⟨first, hsp, hle⟩ := exists_first name count m.next
    · rw [after, hrun]
      rfl
    · have harity : routine.arity = count := by
        simpa using (Option.filter_eq_some_iff.1 hb).2
      have hnone : ∀ w, blockSize? routine w = none := by
        have hpos : 0 < m.word 0 := by
          have hsp : m.word 0 = saturate (first + count) := hsp
          rw [Int16.lt_iff_toInt_lt, hsp, toInt_saturate hle]
          have : 0 < routine.arity := by cases routine <;> decide
          exact Int.natCast_pos.2 (by omega)
        rw [asked?_of_call hi hpos, hb, Option.bind_some] at h
        cases routine <;> simp [blockSize?] at h ⊢
      have hspared := sparing_runRoutine hnone ((List.range' first count).map m.next.word) m.next
      cases hrun : (runRoutine routine ((List.range' first count).map m.next.word)).run m.next with
      | error f m₁ =>
        rw [after, hrun] at hspared
        rw [after, run_call_error hsp hle hb hrun]
        exact hspared
      | ok value m₁ =>
        rw [after, hrun] at hspared
        cases value with
        | none => exact absurd hrun (ne_none_of_runRoutine (by simp [harity]))
        | some value =>
          rw [after, run_call_value hsp hle hb hrun]
          exact ((sparing_setCell _ _).bind (fun _ => sparing_push value) m₁).trans hspared

/-- Any other step leaves the heap alone. -/
theorem heapEnd_of_not_asked (h : m.asked? = none) : (after step m).heapEnd = m.heapEnd := by
  cases hi : m.instruction? with
  | none => rw [after, run_step_of_end hi, left]
  | some i =>
    rw [after, run_step hi]
    by_cases hcall : ∃ name count, i = .call name count
    · obtain ⟨name, count, rfl⟩ := hcall
      have hspared := heapEnd_of_call hi h
      rw [perform, run_bind]
      unfold after at hspared
      cases hrun : (call name count).run m.next <;> rw [hrun] at hspared <;> exact hspared
    · exact sparing_perform (fun name count heq => hcall ⟨name, count, heq⟩) m.next

end Jack.Machine

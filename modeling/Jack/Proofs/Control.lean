import Jack.Proofs.Instructions
import Jack.Proofs.Labels

/-!
# Control

Most of what a machine does leaves alone where it is in its program and which functions it is in
(`Contained`). What else a step can do is a jump, the entry of a function or a return: `Moves` lists
it, and every step is one of these (`moves_step`).
-/

namespace Jack.Machine

variable {α β : Type} {m m₁ m' : Machine}

/-! ## Leaving the control alone -/

/-- The control is as it was, and no heap has been given back. -/
structure Kept (m m' : Machine) : Prop where
  program : m'.program = m.program
  frames : m'.frames = m.frames
  function : m'.function = m.function
  pc : m'.pc = m.pc
  heapEnd : m.heapEnd ≤ m'.heapEnd

theorem Kept.refl (m : Machine) : Kept m m := ⟨rfl, rfl, rfl, rfl, Nat.le_refl _⟩

theorem Kept.trans (h : Kept m m₁) (h' : Kept m₁ m') : Kept m m' where
  program := h'.program.trans h.program
  frames := h'.frames.trans h.frames
  function := h'.function.trans h.function
  pc := h'.pc.trans h.pc
  heapEnd := Nat.le_trans h.heapEnd h'.heapEnd

theorem kept_put (m : Machine) (a : Nat) (value : Word) : Kept m (m.put a value) :=
  ⟨rfl, rfl, rfl, rfl, Nat.le_refl _⟩

/-- A fault that does not come from the control. -/
def Fault.OfData : Fault → Prop
  | .invalidAddress _ | .divisionByZero | .outOfMemory | .overrun => True
  | _ => False

/-- The result of a computation that leaves the control alone. -/
def Stays (m : Machine) : EStateM.Result Fault Machine α → Prop
  | .ok _ m' => Kept m m'
  | .error f m' => Kept m m' ∧ f.OfData

theorem Stays.of_kept {r : EStateM.Result Fault Machine α} (h : Kept m m₁) (hr : Stays m₁ r) :
    Stays m r := by
  cases r with
  | ok a m' => exact h.trans hr
  | error f m' => exact ⟨h.trans hr.1, hr.2⟩

/-- The computation leaves the control alone. -/
def Contained (x : Exec α) : Prop := ∀ m, Stays m (x.run m)

section Contained

variable {x : Exec α} {f : α → Exec β}

theorem Contained.bind (hx : Contained x) (hf : ∀ a, Contained (f a)) : Contained (x >>= f) := by
  intro m
  have hm := hx m
  rw [run_bind]
  cases hrun : x.run m with
  | ok a m₁ => exact (hf a m₁).of_kept (by rwa [hrun] at hm)
  | error e m₁ => rwa [hrun] at hm

theorem Contained.kept {a : α} (hx : Contained x) (hrun : x.run m = .ok a m') : Kept m m' := by
  have hm := hx m
  rwa [hrun] at hm

theorem contained_throw {fault : Fault} (h : fault.OfData) : Contained (throw fault : Exec α) :=
  fun m => ⟨.refl m, h⟩

theorem contained_modify {g : Machine → Machine} (h : ∀ m, Kept m (g m)) :
    Contained (modify g : Exec PUnit) := h

end Contained

/-! ## Looking only -/

/-- The computation changes nothing. -/
def Silent (x : Exec α) : Prop :=
  ∀ m, (∃ a, x.run m = .ok a m) ∨ ∃ f : Fault, f.OfData ∧ x.run m = .error f m

section Silent

variable {x : Exec α} {f : α → Exec β}

theorem silent_pure (a : α) : Silent (pure a : Exec α) := fun _ => .inl ⟨a, rfl⟩

theorem silent_throw {fault : Fault} (h : fault.OfData) : Silent (throw fault : Exec α) :=
  fun _ => .inr ⟨fault, h, rfl⟩

theorem silent_get : Silent (get : Exec Machine) := fun m => .inl ⟨m, rfl⟩

theorem Silent.bind (hx : Silent x) (hf : ∀ a, Silent (f a)) : Silent (x >>= f) := by
  intro m
  rw [run_bind]
  obtain ⟨a, ha⟩ | ⟨e, he, herror⟩ := hx m
  · rw [ha]
    exact hf a m
  · rw [herror]
    exact .inr ⟨e, he, rfl⟩

theorem Silent.eq_of_run {a : α} (hx : Silent x) (h : x.run m = .ok a m') : m' = m := by
  obtain ⟨b, hb⟩ | ⟨e, -, he⟩ := hx m
  · rw [hb] at h
    cases h
    rfl
  · simp [he] at h

theorem Silent.contained (hx : Silent x) : Contained x := by
  intro m
  obtain ⟨a, ha⟩ | ⟨e, he, herror⟩ := hx m
  · rw [ha]
    exact .refl m
  · rw [herror]
    exact ⟨.refl m, he⟩

theorem contained_pure (a : α) : Contained (pure a : Exec α) := (silent_pure a).contained

theorem Contained.map (g : α → β) (h : Contained x) : Contained (g <$> x) := by
  rw [map_eq_pure_bind]
  exact h.bind fun a => contained_pure _

end Silent

theorem silent_cell (a : Nat) : Silent (cell a) := by
  unfold cell
  split
  · exact silent_get.bind fun m => silent_pure _
  · exact silent_throw (by trivial)

theorem silent_address (w : Word) : Silent (address w) := by
  unfold address
  split
  · exact silent_throw (by trivial)
  · exact silent_pure _

theorem silent_locate (index : Nat) (segment : Segment) : Silent (locate index segment) := by
  cases segment with
  | constant | pointer | temp => exact silent_pure _
  | statics => exact silent_get.bind fun m => silent_pure _
  | locals | arguments | this | that =>
    exact (silent_cell _).bind fun w => (silent_address w).bind fun a => silent_pure _

theorem silent_readElement (segment : Segment) (index : Nat) :
    Silent (readElement segment index) := by
  refine (silent_locate index segment).bind fun place => ?_
  cases place with
  | constant value => exact silent_pure _
  | staticVar className index => exact silent_get.bind fun m => silent_pure _
  | memory address => exact silent_cell _

theorem silent_divide (a b : Word) : Silent (divide a b) := by
  unfold divide
  split
  · exact silent_throw (by trivial)
  · exact silent_pure _

/-! ## Writing -/

theorem contained_setCell (a : Nat) (value : Word) : Contained (setCell a value) := by
  unfold setCell
  split
  · exact contained_modify fun m => kept_put m a value
  · exact contained_throw (by trivial)

theorem contained_push (value : Word) : Contained (push value) := by
  refine (silent_cell _).contained.bind fun sp => (contained_setCell _ _).bind fun _ => ?_
  split
  · exact (contained_throw (by trivial)).bind fun _ => contained_setCell _ _
  · exact contained_setCell _ _

theorem contained_pop : Contained pop := by
  have hrest : ∀ sp, Contained (do
      let top ← address (sp - 1)
      setRegister .sp (saturate top)
      cell top) := fun sp =>
    (silent_address _).contained.bind fun top =>
      (contained_setCell _ _).bind fun _ => (silent_cell top).contained
  refine (silent_cell _).contained.bind fun sp => ?_
  split
  · exact (contained_throw (by trivial)).bind fun _ => hrest sp
  · exact hrest sp

theorem contained_writeElement {segment : Segment} (hs : segment ≠ .constant) (index : Nat)
    (value : Word) : Contained (writeElement segment index value) := by
  cases segment with
  | constant => exact absurd rfl hs
  | statics =>
    simp only [writeElement, locate, bind_assoc, pure_bind]
    exact silent_get.contained.bind fun m =>
      contained_modify fun m => ⟨rfl, rfl, rfl, rfl, Nat.le_refl _⟩
  | pointer | temp => exact contained_setCell _ value
  | locals | arguments | this | that =>
    simp only [writeElement, locate, bind_assoc, pure_bind]
    exact (silent_cell _).contained.bind fun w => (silent_address w).contained.bind fun a =>
      contained_setCell _ value

theorem contained_unary (f : Word → Word) : Contained (unary f) :=
  contained_pop.bind fun _ => contained_push _

theorem contained_binary (f : Word → Word → Word) : Contained (binary f) :=
  contained_pop.bind fun _ => contained_pop.bind fun _ => contained_push _

theorem contained_pushLocals (count : Nat) : Contained (pushLocals count) := by
  induction count with
  | zero => exact contained_pure _
  | succ count ih => exact (contained_push 0).bind fun _ => ih

/-! ## Routines -/

theorem contained_reserve (size : Word) : Contained (reserve size) := by
  refine (silent_address size).contained.bind fun count => silent_get.contained.bind fun m => ?_
  refine Contained.bind (contained_modify fun m => ?_) fun _ => ?_
  · exact ⟨rfl, rfl, rfl, rfl, Nat.le_add_right _ _⟩
  split
  · exact (contained_throw (by trivial)).bind fun _ => contained_pure _
  · exact contained_pure _

theorem contained_newString (capacity : Word) : Contained (newString capacity) :=
  (contained_reserve _).bind fun string => (silent_address string).contained.bind fun a =>
    (contained_setCell a 0).bind fun _ => contained_pure _

theorem contained_appendChar (string c : Word) : Contained (appendChar string c) :=
  (silent_address string).contained.bind fun base => (silent_cell base).contained.bind fun w =>
    (silent_address w).contained.bind fun _ => (contained_setCell _ c).bind fun _ =>
      (silent_cell base).contained.bind fun _ => (contained_setCell base _).bind fun _ =>
        contained_pure _

theorem contained_runRoutine (routine : Routine) (arguments : List Word) :
    Contained (runRoutine routine arguments) := by
  unfold runRoutine
  split
  · exact (contained_reserve _).map _
  · exact (contained_newString _).map _
  · exact (contained_appendChar _ _).map _
  · exact contained_pure _
  · exact (silent_divide _ _).contained.map _
  · exact contained_pure _

/-- A routine has a value for as many arguments as it takes. -/
theorem ne_none_of_runRoutine {routine : Routine} {arguments : List Word}
    (h : arguments.length = routine.arity) :
    (runRoutine routine arguments).run m ≠ .ok none m' := by
  have hmap : ∀ {x : Exec Word}, (some <$> x).run m ≠ .ok none m' := by
    intro x hx
    rw [map_eq_pure_bind, run_bind] at hx
    cases hrun : x.run m <;> simp [hrun] at hx
  cases routine <;> rcases arguments with _ | ⟨a, _ | ⟨b, _ | ⟨c, arguments⟩⟩⟩ <;>
    first | exact hmap | simp [Routine.arity, runRoutine] at h ⊢

/-! ## Calls and jumps -/

theorem exists_first (name : String) (count : Nat) (m : Machine) :
    (∃ f : Fault, f.OfData ∧ (call name count).run m = .error f m) ∨
      ∃ first, m.word 0 = saturate (first + count) ∧ first + count ≤ 32767 := by
  rcases Int16.lt_or_le (m.word 0) 0 with hneg | hpos
  · refine .inl ⟨.invalidAddress (m.word 0).toInt, trivial, ?_⟩
    simp only [call, run_bind, run_register, Register.address, run_address_of_neg m hneg]
  · obtain ⟨top, hle, hsp⟩ := exists_saturate hpos
    by_cases hlt : top < count
    · refine .inl ⟨.invalidAddress (-1), trivial, ?_⟩
      simp only [call, run_bind, run_register, Register.address, hsp, run_address_saturate m hle,
        if_pos hlt, run_throw]
    · have htop : top - count + count = top := by omega
      exact .inr ⟨top - count, by rw [htop, hsp], by omega⟩

theorem run_call_of_none {name : String} {count : Nat} (h : builtin? name count = none)
    (m : Machine) :
    (∃ f : Fault, f.OfData ∧ (call name count).run m = .error f m) ∨
      (call name count).run m = (enterFunction name count (some m.pc)).run m := by
  refine (exists_first name count m).imp id ?_
  rintro ⟨first, hsp, hle⟩
  exact run_call_function hsp hle h

theorem contained_call {name : String} {count : Nat} {routine : Routine}
    (h : builtin? name count = some routine) : Contained (call name count) := by
  have hset : ∀ first value, Contained (do
      setRegister .sp (saturate first)
      push value) := fun _ _ => (contained_setCell _ _).bind fun _ => contained_push _
  obtain ⟨-, harity⟩ := Option.filter_eq_some_iff.1 h
  intro m
  obtain ⟨f, hf, hrun⟩ | ⟨first, hsp, hle⟩ := exists_first name count m
  · rw [hrun]
    exact ⟨.refl m, hf⟩
  · have hroutine := contained_runRoutine routine ((List.range' first count).map m.word) m
    cases hr : (runRoutine routine ((List.range' first count).map m.word)).run m with
    | error f m₁ =>
      rw [run_call_error hsp hle h hr]
      rwa [hr] at hroutine
    | ok value m₁ =>
      rw [hr] at hroutine
      cases value with
      | none =>
        have hlength : routine.arity = count := by simpa using harity
        exact absurd hr (ne_none_of_runRoutine (by simp [hlength]))
      | some value =>
        rw [run_call_value hsp hle h hr]
        exact (hset first value m₁).of_kept hroutine

theorem run_jumpTo_eq (m : Machine) (label : String) : (jumpTo label).run m =
    match m.program.labels[(m.function, label)]? with
    | some pc => .ok () { m with pc }
    | none => .error (.unknownLabel label m.function) m := by
  simp only [jumpTo, run_bind, run_get]
  cases m.program.labels[(m.function, label)]? <;> rfl

/-! ## Steps -/

/-- The program is the same, and no heap has been given back. -/
structure Grown (m m' : Machine) : Prop where
  program : m'.program = m.program
  heapEnd : m.heapEnd ≤ m'.heapEnd

theorem Kept.grown (h : Kept m m') : Grown m m' := ⟨h.program, h.heapEnd⟩

theorem Grown.trans (h : Grown m m₁) (h' : Grown m₁ m') : Grown m m' :=
  ⟨h'.program.trans h.program, Nat.le_trans h.heapEnd h'.heapEnd⟩

/-- The instruction always leads on to the next one. -/
def Straight : Instruction → Prop
  | .push _ _ | .label _ | .function _ _ => True
  | .pop segment _ => segment ≠ .constant
  | .command action => action ≠ .ret
  | _ => False

theorem contained_perform {i : Instruction} (h : Straight i) : Contained (perform i) := by
  have hdone : ∀ {x : Exec Unit}, Contained x → Contained (do x; return none : Exec (Option Word)) :=
    fun hx => hx.bind fun _ => contained_pure none
  cases i with
  | push segment index =>
    exact (silent_readElement segment index).contained.bind fun value => hdone (contained_push value)
  | pop segment index =>
    exact contained_pop.bind fun value => hdone (contained_writeElement h index value)
  | command action =>
    cases action with
    | ret => exact absurd rfl h
    | neg | not => exact hdone (contained_unary _)
    | _ => exact hdone (contained_binary _)
  | label name => exact contained_pure none
  | function name count => exact hdone (contained_pushLocals count)
  | goto | ifGoto | call => exact h.elim

theorem contained_perform_call {name : String} {count : Nat} {routine : Routine}
    (h : builtin? name count = some routine) : Contained (perform (.call name count)) :=
  (contained_call h).bind fun _ => contained_pure none

theorem eq_none_of_run_bind {x : Exec α} {r : Option Word}
    (h : (x >>= fun _ => pure none).run m = .ok r m') : r = none := by
  rw [run_bind] at h
  cases hrun : x.run m <;> simp [hrun] at h
  exact h.1.symm

theorem eq_none_of_run_perform {i : Instruction} {r : Option Word} (hi : Straight i)
    (h : (perform i).run m = .ok r m') : r = none := by
  cases i with
  | push segment index | pop segment index =>
    rw [perform, ← bind_assoc] at h
    exact eq_none_of_run_bind h
  | command action =>
    cases action with
    | ret => exact absurd rfl hi
    | _ => exact eq_none_of_run_bind h
  | label name =>
    cases h
    rfl
  | function name count => exact eq_none_of_run_bind h
  | goto | ifGoto | call => exact hi.elim

/-- What a step can do to the control. -/
inductive Moves (m : Machine) : EStateM.Result Fault Machine (Option Word) → Prop
  | on {i : Instruction} {m' : Machine} (hi : m.instruction? = some i) (hret : i ≠ .command .ret)
    (h : Kept m.next m') : Moves m (.ok none m')
  | jump {i : Instruction} {name : String} {pc : Nat} {m' : Machine} (hi : m.instruction? = some i)
    (ht : i.target? = some name) (hl : m.program.labels[(m.function, name)]? = some pc)
    (h : Kept { m with pc } m') : Moves m (.ok none m')
  | enter {name : String} {count entry : Nat} (hi : m.instruction? = some (.call name count))
    (hb : builtin? name count = none) (hf : m.program.functions[name]? = some entry) :
    Moves m (.ok none (m.next.entered name count (some (m.pc + 1)) entry))
  | leave {frame : Frame} {frames : List Frame} {value : Word} {m' : Machine}
    (hi : m.instruction? = some (.command .ret)) (hframes : m.frames = frame :: frames)
    (hframes' : m'.frames = frames) (hfunction : m'.function = frame.function)
    (hpc : ∀ pc ∈ frame.returnAddress, m'.pc = pc) (h : Grown m m') :
    Moves m (.ok (if frame.returnAddress.isSome then none else some value) m')
  | fault {f : Fault} {m' : Machine} (hf : f.OfData) (h : Grown m m') : Moves m (.error f m')
  | unknownLabel {i : Instruction} {name : String} {m' : Machine} (hi : m.instruction? = some i)
    (ht : i.target? = some name) (hl : m.program.labels[(m.function, name)]? = none)
    (h : Grown m m') : Moves m (.error (.unknownLabel name m.function) m')
  | unknownFunction {name : String} {count : Nat} (hi : m.instruction? = some (.call name count))
    (hb : builtin? name count = none) (hf : m.program.functions[name]? = none) :
    Moves m (.error (.unknownFunction name) m.next)
  | noCaller {m' : Machine} (hi : m.instruction? = some (.command .ret)) (hframes : m.frames = [])
    (h : Grown m m') : Moves m (.error (.unknownFunction m.function) m')
  | popConstant {index : Nat} {f : Fault} {m' : Machine}
    (hi : m.instruction? = some (.pop .constant index)) (h : Grown m m') : Moves m (.error f m')
  | ended (hi : m.instruction? = none) : Moves m (.error (.unknownFunction m.function) m)

theorem grown_next (m : Machine) : Grown m m.next := ⟨rfl, Nat.le_refl _⟩

/-- If the first part leaves the control alone, the control moves as in what follows it: where the
first part fails, that is a fault of data. -/
theorem Contained.moves_bind {x : Exec α} {f : α → Exec (Option Word)} (hx : Contained x)
    (hgrown : Grown m m₁) (h : ∀ a m₂, Kept m₁ m₂ → Moves m ((f a).run m₂)) :
    Moves m ((x >>= f).run m₁) := by
  have hstays := hx m₁
  rw [run_bind]
  cases hrun : x.run m₁ with
  | ok a m₂ =>
    rw [hrun] at hstays
    exact h a m₂ hstays
  | error fault m₂ =>
    rw [hrun] at hstays
    exact .fault hstays.2 (hgrown.trans hstays.1.grown)

theorem moves_straight {i : Instruction} (hi : m.instruction? = some i) (h : Straight i) :
    Moves m ((perform i).run m.next) := by
  have hstays := contained_perform h m.next
  cases hrun : (perform i).run m.next with
  | ok r m' =>
    obtain rfl := eq_none_of_run_perform h hrun
    rw [hrun] at hstays
    refine .on hi ?_ hstays
    rintro rfl
    exact h rfl
  | error f m' =>
    rw [hrun] at hstays
    exact .fault hstays.2 ((grown_next m).trans hstays.1.grown)

/-- Leaves the value where the arguments were, and puts the caller's registers back. -/
def restore (value : Word) (frame : Frame) : Exec Unit := do
  let arg ← address (← register .arg)
  setCell arg value
  setRegister .sp (saturate (arg + 1))
  setRegister .lcl frame.lcl
  setRegister .arg frame.arg
  setRegister .this frame.this
  setRegister .that frame.that

/-- Goes on where the call was. -/
def resume (value : Word) (frame : Frame) : Exec (Option Word) := do
  modify fun m => { m with function := frame.function }
  match frame.returnAddress with
  | some pc =>
    modify fun m => { m with pc }
    return none
  | none => return some value

theorem leaveFunction_eq : leaveFunction = (do
    let value ← pop
    let frame ← popFrame
    restore value frame
    resume value frame) := by
  simp only [restore, bind_assoc]
  rfl

theorem contained_restore (value : Word) (frame : Frame) : Contained (restore value frame) :=
  (silent_cell _).contained.bind fun w => (silent_address w).contained.bind fun arg =>
    (contained_setCell arg value).bind fun _ => (contained_setCell _ _).bind fun _ =>
      (contained_setCell _ _).bind fun _ => (contained_setCell _ _).bind fun _ =>
        (contained_setCell _ _).bind fun _ => contained_setCell _ _

theorem moves_leave (hi : m.instruction? = some (.command .ret)) :
    Moves m (leaveFunction.run m.next) := by
  rw [leaveFunction_eq]
  refine contained_pop.moves_bind (grown_next m) fun value m₁ hkept => ?_
  have hframes : m₁.frames = m.frames := hkept.frames
  have hfunction : m₁.function = m.function := hkept.function
  have hgrown : Grown m m₁ := (grown_next m).trans hkept.grown
  simp only [run_bind, popFrame, run_get]
  cases hf : m.frames with
  | nil =>
    simp only [hframes, hf, run_throw, hfunction]
    exact .noCaller hi hf hgrown
  | cons frame frames =>
    simp only [hframes, hf, run_bind, run_set, run_pure]
    rw [← run_bind]
    have hpopped : Grown m { m₁ with frames } := ⟨hgrown.program, hgrown.heapEnd⟩
    refine (contained_restore value frame).moves_bind hpopped fun _ m₂ hkept₂ => ?_
    have hgrown₂ : Grown m m₂ := hpopped.trans hkept₂.grown
    have hleave := @Moves.leave m frame frames value
    simp only [resume, run_bind, run_modify]
    cases hret : frame.returnAddress with
    | none =>
      rw [hret] at hleave
      exact hleave hi hf hkept₂.frames rfl (by simp) ⟨hgrown₂.program, hgrown₂.heapEnd⟩
    | some pc =>
      rw [hret] at hleave
      exact hleave hi hf hkept₂.frames rfl (by simp) ⟨hgrown₂.program, hgrown₂.heapEnd⟩

theorem moves_jump {i : Instruction} {name : String} (hi : m.instruction? = some i)
    (ht : i.target? = some name) (h : Kept m.next m₁) : Moves m ((do
      jumpTo name
      return none : Exec (Option Word)).run m₁) := by
  have hprogram : m₁.program = m.program := h.program
  have hfunction : m₁.function = m.function := h.function
  have hlabels : m₁.program.labels[(m₁.function, name)]? = m.program.labels[(m.function, name)]? := by
    rw [hprogram, hfunction]
  rw [run_bind, run_jumpTo_eq, hlabels]
  cases hl : m.program.labels[(m.function, name)]? with
  | none =>
    simp only [hfunction]
    exact .unknownLabel hi ht hl ((grown_next m).trans h.grown)
  | some pc => exact .jump hi ht hl ⟨h.program, h.frames, h.function, rfl, h.heapEnd⟩

theorem moves_ifGoto {name : String} (hi : m.instruction? = some (.ifGoto name)) :
    Moves m ((perform (.ifGoto name)).run m.next) := by
  rw [perform]
  refine contained_pop.moves_bind (grown_next m) fun value m₁ hkept => ?_
  by_cases hv : value ≠ 0
  · simp only [if_pos hv]
    exact moves_jump hi rfl hkept
  · simp only [if_neg hv]
    exact .on hi (by simp) hkept

theorem moves_call {name : String} {count : Nat} (hi : m.instruction? = some (.call name count)) :
    Moves m ((perform (.call name count)).run m.next) := by
  cases hb : builtin? name count with
  | some routine =>
    rw [perform]
    exact (contained_call hb).moves_bind (grown_next m) fun _ m₁ hkept => .on hi (by simp) hkept
  | none =>
    rw [perform, run_bind]
    obtain ⟨f, hf, hrun⟩ | hrun := run_call_of_none hb m.next
    · rw [hrun]
      exact .fault hf (grown_next m)
    · rw [hrun]
      have hprogram : m.next.program = m.program := rfl
      cases hfun : m.program.functions[name]? with
      | none =>
        rw [run_enterFunction_of_none count _ (hprogram ▸ hfun)]
        exact .unknownFunction hi hb hfun
      | some entry =>
        rw [run_enterFunction count _ (hprogram ▸ hfun)]
        exact .enter hi hb hfun

theorem moves_popConstant {index : Nat} (hi : m.instruction? = some (.pop .constant index)) :
    Moves m ((perform (.pop .constant index)).run m.next) := by
  rw [perform]
  exact contained_pop.moves_bind (grown_next m) fun value m₁ hkept =>
    .popConstant hi ((grown_next m).trans hkept.grown)

/-- Whatever a step does, it moves the control in one of these ways. -/
theorem moves_step (m : Machine) : Moves m (step.run m) := by
  cases hi : m.instruction? with
  | none =>
    rw [run_step_of_end hi]
    exact .ended hi
  | some i =>
    rw [run_step hi]
    cases i with
    | goto name => exact moves_jump hi rfl (.refl _)
    | ifGoto name => exact moves_ifGoto hi
    | call name count => exact moves_call hi
    | command action =>
      by_cases hret : action = .ret
      · subst hret
        exact moves_leave hi
      · exact moves_straight hi hret
    | pop segment index =>
      by_cases hs : segment = .constant
      · subst hs
        exact moves_popConstant hi
      · exact moves_straight hi hs
    | push | label | function => exact moves_straight hi trivial

end Jack.Machine

import Jack.Proofs.Addresses
import Jack.Proofs.Stack

/-!
# What an instruction does

`perform` is a step without fetching (`run_step`). For every instruction it is said what it does
while the stack pointer and the registers it goes through are words of numbers: the segments
(`run_readElement`, `run_writeElement`), pushes and pops (`run_step_push`, `run_step_pop`), the calls
that are carried out in place (`run_step_routine`), those that enter a function (`run_step_function`)
and the return (`run_leaveFunction`).
-/

namespace Jack.Machine

/-- Carries out an instruction. -/
def perform : Instruction → Exec (Option Word)
  | .push segment index => do
    push (← readElement segment index)
    return none
  | .pop segment index => do
    writeElement segment index (← pop)
    return none
  | .command action => runCommand action
  | .label _ => return none
  | .goto label => do
    jumpTo label
    return none
  | .ifGoto label => do
    if (← pop) ≠ 0 then jumpTo label
    return none
  | .function _ localCount => do
    pushLocals localCount
    return none
  | .call name argumentCount => do
    call name argumentCount
    return none

variable {m m' : Machine}

/-- The instruction at hand. -/
def instruction? (m : Machine) : Option Instruction := m.program.code[m.pc]?

theorem instruction?_of_program {m : Machine} {code : List Instruction}
    (h : m.program = .ofInstructions code) : m.instruction? = code[m.pc]? := by
  rw [instruction?, h, Program.code_ofInstructions, List.getElem?_toArray]

/-- The machine moved on to the next instruction. -/
def next (m : Machine) : Machine := { m with pc := m.pc + 1 }

theorem word_next (m : Machine) (a : Nat) : m.next.word a = m.word a := rfl

theorem step_eq : step = fetch >>= perform := rfl

theorem run_step {i : Instruction} (h : m.instruction? = some i) :
    step.run m = (perform i).run m.next := by
  simp only [instruction?] at h
  simp only [step_eq, run_bind, fetch, run_get, h, run_set, run_pure, next]

theorem run_step_of_end (h : m.instruction? = none) :
    step.run m = .error (.unknownFunction m.function) m := by
  simp only [instruction?] at h
  simp only [step_eq, run_bind, fetch, run_get, h, run_throw]

/-! ## Segments -/

/-- The register that a segment begins at. -/
def base? : Segment → Option Register
  | .locals => some .lcl
  | .arguments => some .arg
  | .this => some .this
  | .that => some .that
  | _ => none

/-- The cell in which a segment of fixed place begins. -/
def fixed? : Segment → Option Nat
  | .pointer => some pointerBase
  | .temp => some tempBase
  | _ => none

section Segments

variable {segment : Segment} {r : Register} {base index : Nat}

theorem run_locate_of_base (hs : base? segment = some r) (hr : m.word r.address = saturate base)
    (hle : base ≤ 32767) : (locate index segment).run m = .ok (.memory (base + index)) m := by
  cases segment <;> simp only [base?, reduceCtorEq, Option.some.injEq] at hs <;> subst hs <;>
    simp only [locate, run_bind, run_register, hr, run_address_saturate m hle, run_pure]

theorem run_locate_of_fixed (hs : fixed? segment = some base) :
    (locate index segment).run m = .ok (.memory (base + index)) m := by
  cases segment <;> simp only [fixed?, reduceCtorEq, Option.some.injEq] at hs <;> subst hs <;> rfl

variable (hl : (locate index segment).run m = .ok (.memory (base + index)) m)

include hl

theorem run_readElement (h : base + index ≤ 32767) :
    (readElement segment index).run m = .ok (m.word (base + index)) m := by
  simp only [readElement, run_bind, hl, run_cell m (show base + index < ramSize by
    simp only [ramSize]; omega)]

theorem run_writeElement (value : Word) (h : base + index ≤ 32767) :
    (writeElement segment index value).run m = .ok () (m.put (base + index) value) := by
  simp only [writeElement, run_bind, hl, run_setCell m value (show base + index < ramSize by
    simp only [ramSize]; omega)]

end Segments

/-! ## Pushes and pops -/

section Steps

variable {segment : Segment} {index sp : Nat}

theorem run_step_push {value : Word} (hi : m.instruction? = some (.push segment index))
    (hread : (readElement segment index).run m.next = .ok value m.next)
    (hsp : m.word 0 = saturate sp) (hlt : sp < 32767) :
    step.run m = .ok none (m.next.pushed sp value) := by
  rw [run_step hi]
  simp only [perform, run_bind, hread, run_push_of_room (m := m.next) value hsp hlt, run_pure]

theorem run_step_constant {n : Nat} (hi : m.instruction? = some (.push .constant n))
    (hsp : m.word 0 = saturate sp) (hlt : sp < 32767) :
    step.run m = .ok none (m.next.pushed sp (saturate n)) :=
  run_step_push hi rfl hsp hlt

theorem run_step_pop {place : Nat} (hi : m.instruction? = some (.pop segment index))
    (hl : (locate index segment).run (m.next.lowered sp) = .ok (.memory place) (m.next.lowered sp))
    (hle : place ≤ 32767) (hsp : m.word 0 = saturate (sp + 1)) (hpos : 0 < sp) (hlt : sp < 32767) :
    step.run m = .ok none ((m.next.lowered sp).put place (m.word sp)) := by
  rw [run_step hi]
  simp only [perform, run_bind, run_pop_of_pushed (m := m.next) hsp hlt hpos, writeElement, hl,
    run_setCell _ _ (show place < ramSize by simp only [ramSize]; omega), run_pure]
  rfl

theorem run_step_entry {name : String} (hi : m.instruction? = some (.function name 0)) :
    step.run m = .ok none m.next := by
  rw [run_step hi]
  rfl

end Steps

/-! ## Calls of functions -/

/-- What a call saves. -/
def frame (m : Machine) (returnAddress : Option Nat) : Frame where
  returnAddress
  function := m.function
  lcl := m.word 1
  arg := m.word 2
  this := m.word 3
  that := m.word 4

/-- The machine at the entry of a function. -/
def entered (m : Machine) (name : String) (argumentCount : Nat) (returnAddress : Option Nat)
    (entry : Nat) : Machine :=
  { (m.put 2 (m.word 0 - saturate argumentCount)).put 1 (m.word 0) with
    frames := m.frame returnAddress :: m.frames
    function := name
    pc := entry }

theorem word_entered (m : Machine) (name : String) (argumentCount : Nat)
    (returnAddress : Option Nat) (entry a : Nat) :
    (m.entered name argumentCount returnAddress entry).word a =
      if a = 1 then m.word 0 else if a = 2 then m.word 0 - saturate argumentCount
      else m.word a := by
  have hput : (m.entered name argumentCount returnAddress entry).word a =
      ((m.put 2 (m.word 0 - saturate argumentCount)).put 1 (m.word 0)).word a := rfl
  rw [hput, word_put_of_lt _ _ (by decide), word_put_of_lt _ _ (by decide)]
  simp only [eq_comm]

theorem run_enterFunction {name : String} {entry : Nat} (argumentCount : Nat)
    (returnAddress : Option Nat) (h : m.program.functions[name]? = some entry) :
    (enterFunction name argumentCount returnAddress).run m =
      .ok () (m.entered name argumentCount returnAddress entry) := by
  simp only [enterFunction, run_bind, run_get, h, run_register, run_modify, run_setRegister]
  rfl

theorem run_enterFunction_of_none {name : String} (argumentCount : Nat)
    (returnAddress : Option Nat) (h : m.program.functions[name]? = none) :
    (enterFunction name argumentCount returnAddress).run m = .error (.unknownFunction name) m := by
  simp only [enterFunction, run_bind, run_get, h, run_throw]

/-- The machine behind a return to the frame. -/
def returned (m : Machine) (arg : Nat) (value : Word) (frame : Frame) (frames : List Frame) :
    Machine :=
  { ((((((m.put arg value).put 0 (saturate (arg + 1))).put 1 frame.lcl).put 2 frame.arg).put 3
      frame.this).put 4 frame.that) with
    frames
    function := frame.function
    pc := frame.returnAddress.getD m.pc }

theorem put_lowered_put {sp a : Nat} {v w : Word} :
    ((m.lowered sp).put a v).put 0 w = (m.put a v).put 0 w := by
  by_cases h : a = 0
  · subst h
    simp only [lowered, put_put]
  · rw [lowered, put_comm _ _ (Ne.symm h), put_put]

section Returned

variable (m : Machine) (arg : Nat) (value : Word) (frame : Frame) (frames : List Frame)

@[simp] theorem program_returned : (m.returned arg value frame frames).program = m.program := by
  simp only [returned, program_put]

@[simp] theorem heapEnd_returned : (m.returned arg value frame frames).heapEnd = m.heapEnd := by
  simp only [returned, heapEnd_put]

@[simp] theorem frames_returned : (m.returned arg value frame frames).frames = frames := by
  simp only [returned]

@[simp] theorem function_returned :
    (m.returned arg value frame frames).function = frame.function := by
  simp only [returned]

@[simp] theorem pc_returned :
    (m.returned arg value frame frames).pc = frame.returnAddress.getD m.pc := by
  simp only [returned]

end Returned

theorem word_returned {arg : Nat} (value : Word) (frame : Frame) (frames : List Frame)
    (h : arg ≤ 32767) (a : Nat) :
    (m.returned arg value frame frames).word a =
      if a = 0 then saturate (arg + 1) else if a = 1 then frame.lcl else if a = 2 then frame.arg
      else if a = 3 then frame.this else if a = 4 then frame.that
      else if a = arg then value else m.word a := by
  have hput : (m.returned arg value frame frames).word a =
      ((((((m.put arg value).put 0 (saturate (arg + 1))).put 1 frame.lcl).put 2 frame.arg).put 3
        frame.this).put 4 frame.that).word a := by
    simp only [returned, word]
  have hreg : ∀ (m' : Machine) (b : Nat) (v : Word), b ≤ 4 →
      (m'.put b v).word a = if b = a then v else m'.word a :=
    fun m' b v hb => word_put_of_lt a v (Nat.le_trans hb (by omega))
  rw [hput, hreg _ 4 _ (by omega), hreg _ 3 _ (by omega), hreg _ 2 _ (by omega),
    hreg _ 1 _ (by omega), hreg _ 0 _ (by omega), word_put_of_lt a value h]
  grind

theorem run_leaveFunction {sp arg : Nat} {frame : Frame} {frames : List Frame}
    (hsp : m.word 0 = saturate (sp + 1)) (h : sp < 32767) (hpos : 0 < sp)
    (harg : m.word 2 = saturate arg) (hle : arg ≤ 32767) (hf : m.frames = frame :: frames) :
    leaveFunction.run m =
      .ok (if frame.returnAddress.isSome then none else some (m.word sp))
        (m.returned arg (m.word sp) frame frames) := by
  have hlow : (m.lowered sp).frames = frame :: frames := hf
  have harg' : ({ m.lowered sp with frames } : Machine).word 2 = saturate arg := by
    rw [← harg]
    exact (word_lowered sp 2).trans (if_neg (by decide))
  simp only [leaveFunction, popFrame, run_bind, run_pop_of_pushed hsp h (by omega), run_get, hlow,
    run_set, run_pure, run_register, Register.address, harg', run_address_saturate _ hle,
    run_setCell _ _ (show arg < ramSize by simp only [ramSize]; omega), run_setRegister, run_modify]
  have hram := congrArg Machine.ram
    (@put_lowered_put m sp arg (m.word sp) (saturate (arg + 1)))
  simp only [put, lowered] at hram
  cases hr : frame.returnAddress with
  | none => simp [returned, put, lowered, hram, hr]
  | some pc =>
    simp only [returned, put, lowered, hram, hr, Option.isSome_some, if_true, Option.getD_some]
    rfl

/-! ## Calls of routines -/

/-- The routine that a call carries out in place. -/
def builtin? (name : String) (argumentCount : Nat) : Option Routine :=
  (routineOf? name).filter (·.arity = argumentCount)

theorem run_cells {start count : Nat} (m : Machine) (h : start + count ≤ ramSize) :
    (cells start count).run m = .ok ((List.range' start count).map m.word) m := by
  induction count generalizing start with
  | zero => rfl
  | succ count ih =>
    simp only [cells, run_bind, run_cell m (show start < ramSize by omega),
      @ih (start + 1) (by omega), run_pure, List.range'_succ, List.map_cons]

/-- A routine looks only at its arguments, and takes no other number of them. -/
theorem run_runRoutine_of_ne {routine : Routine} {arguments : List Word}
    (h : routine.arity ≠ arguments.length) :
    (runRoutine routine arguments).run m = .ok none m := by
  cases routine <;> rcases arguments with _ | ⟨a, _ | ⟨b, _ | ⟨c, arguments⟩⟩⟩ <;>
    first | rfl | simp [Routine.arity] at h

theorem run_reserve {n : Nat} (h : m.heapEnd + n < ramSize) :
    (reserve (saturate n)).run m =
      .ok (saturate m.heapEnd) { m with heapEnd := m.heapEnd + n } := by
  have hle : n ≤ 32767 := by
    simp only [ramSize] at h
    omega
  simp only [reserve, run_bind, run_address_saturate m hle, run_get, run_modify,
    if_neg (Nat.not_le.2 h), run_pure]

section Calls

variable {name : String} {first count : Nat} {routine : Routine}
  (hsp : m.word 0 = saturate (first + count)) (hle : first + count ≤ 32767)

include hsp hle

theorem run_call_eq : (call name count).run m = (do
    let result ← match routineOf? name with
      | some routine => runRoutine routine ((List.range' first count).map m.word)
      | none => pure none
    match result with
    | some value =>
      setRegister .sp (saturate first)
      push value
    | none => enterFunction name count (some (← get).pc) : Exec Unit).run m := by
  simp only [call, run_bind, run_register, Register.address, hsp, run_address_saturate m hle,
    if_neg (Nat.not_lt.2 (Nat.le_add_left count first)), Nat.add_sub_cancel]
  cases routineOf? name with
  | none => rfl
  | some routine =>
    have hcells := run_cells m (show first + count ≤ ramSize by simp only [ramSize]; omega)
    exact (run_bind _ _ m).trans (hcells ▸ rfl)

theorem run_call_value {m₁ : Machine} {value : Word} (hr : builtin? name count = some routine)
    (h : (runRoutine routine ((List.range' first count).map m.word)).run m = .ok (some value) m₁) :
    (call name count).run m = (do
      setRegister .sp (saturate first)
      push value : Exec Unit).run m₁ := by
  obtain ⟨hr, -⟩ := Option.filter_eq_some_iff.1 hr
  rw [run_call_eq hsp hle]
  simp only [hr, run_bind, h]

theorem run_call_routine {m₁ : Machine} {value : Word} (hr : builtin? name count = some routine)
    (hpos : 0 < first) (hlt : first < 32767)
    (h : (runRoutine routine ((List.range' first count).map m.word)).run m = .ok (some value) m₁) :
    (call name count).run m = .ok () (m₁.pushed first value) := by
  have hlow : (m₁.lowered first).word 0 = saturate first := by rw [word_lowered, if_pos rfl]
  rw [run_call_value hsp hle hr h]
  simp only [run_bind, run_setRegister, Register.address]
  exact (run_push_of_room value hlow hlt).trans (by rw [lowered_pushed _ (by omega)])

theorem run_call_error {m₁ : Machine} {fault : Fault} (hr : builtin? name count = some routine)
    (h : (runRoutine routine ((List.range' first count).map m.word)).run m = .error fault m₁) :
    (call name count).run m = .error fault m₁ := by
  obtain ⟨hr, -⟩ := Option.filter_eq_some_iff.1 hr
  simp only [run_call_eq hsp hle, hr, run_bind, h]

theorem run_call_function (hr : builtin? name count = none) :
    (call name count).run m = (enterFunction name count (some m.pc)).run m := by
  rw [run_call_eq hsp hle]
  cases hname : routineOf? name with
  | none => simp only [run_bind, run_pure, run_get]
  | some routine =>
    have hne : routine.arity ≠ ((List.range' first count).map m.word).length := by
      rw [List.length_map, List.length_range']
      intro heq
      simp [builtin?, hname, heq] at hr
    simp only [run_bind, run_runRoutine_of_ne hne, run_get]

theorem run_step_function {entry : Nat} (hi : m.instruction? = some (.call name count))
    (hb : builtin? name count = none) (hentry : m.program.functions[name]? = some entry) :
    step.run m = .ok none (m.next.entered name count (some (m.pc + 1)) entry) := by
  have hcall := run_call_function (m := m.next) hsp hle hb
  have henter := run_enterFunction (m := m.next) count (some m.next.pc) hentry
  rw [run_step hi]
  simp only [perform, run_bind, hcall, henter, run_pure]
  rfl

end Calls

@[simp] theorem builtin?_text (routine : Routine) :
    builtin? routine.text routine.arity = some routine := by
  cases routine <;> decide

section Routines

variable {routine : Routine} {first : Nat} (hi : m.instruction? = some routine.call)
  (hsp : m.word 0 = saturate (first + routine.arity)) (hle : first + routine.arity ≤ 32767)

include hi hsp hle

/-- The arguments of a call in place lie on top of the stack. -/
theorem run_step_routine {m₁ : Machine} {value : Word} (hpos : 0 < first) (hlt : first < 32767)
    (h : (runRoutine routine ((List.range' first routine.arity).map m.word)).run m.next =
      .ok (some value) m₁) :
    step.run m = .ok none (m₁.pushed first value) := by
  rw [run_step hi]
  simp only [Routine.call, perform, run_bind,
    run_call_routine (m := m.next) hsp hle (builtin?_text routine) hpos hlt h, run_pure]

theorem run_step_routine_error {m₁ : Machine} {fault : Fault}
    (h : (runRoutine routine ((List.range' first routine.arity).map m.word)).run m.next =
      .error fault m₁) :
    step.run m = .error fault m₁ := by
  rw [run_step hi]
  simp only [Routine.call, perform, run_bind,
    run_call_error (m := m.next) hsp hle (builtin?_text routine) h]

end Routines

end Jack.Machine

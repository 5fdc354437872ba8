import Jack.Proofs.ClassCode
import Jack.Proofs.Levels

/-!
# The calling convention

A function that was called comes back to its caller, who finds the value where the arguments were and
everything else as it was, whatever the function has done in between (`resumed_of_return`). This rests
on the arguments lying above the registers: a class can store to the stack pointer through an object
that is not there, and a call from among the registers does not come back (`not_resumed_low`).
-/

namespace Jack.Machine

open Syntax

variable {code : List Instruction} {before caller m m' : Machine} {bottom inner : List Frame}
  {base sp lcl arg depth : Nat} {r : Option Word}

/-! ## Activations -/

/-- The machine is in the activation that the caller's next instruction begins. -/
inductive Activation (caller : Machine) : Machine → Prop
  | enter {m : Machine} (hstep : step.run caller = .ok none m)
    (hin : caller.frames.length < m.frames.length) : Activation caller m
  | step {m m' : Machine} (h : Activation caller m) (hstep : step.run m = .ok none m')
    (hin : caller.frames.length < m'.frames.length) : Activation caller m'

/-- It stores nothing below the heap, and its stack does not reach into it. -/
structure Modest (m : Machine) : Prop where
  stores : ∀ a ∈ m.storeAddress?, 2048 ≤ a
  stack : (m.word 0).toInt ≤ 2048

theorem Level.le_of_modest (h : Level code before bottom base inner sp lcl arg depth m)
    (hm : m.Modest) : sp ≤ heapBase := by
  have hstack := hm.stack
  rw [h.sp_eq, toInt_saturate h.high] at hstack
  simp only [heapBase]
  omega

section Activation

variable {name : String} {count : Nat}
  (hcode : Settled code)
  (hplaced : ∀ segment index, .pop segment index ∈ code → WellPlaced segment index)
  (hprogram : caller.program = .ofInstructions code) (hheap : heapBase ≤ caller.heapEnd)
  (hi : caller.instruction? = some (.call name count)) (hb : builtin? name count = none)
  (hsp : caller.word 0 = saturate sp) (hhigh : sp ≤ 32767) (hlow : count + 2 < sp)
  (hmodest : ∀ m, Activation caller m → m.Modest)

include hcode hplaced hprogram hheap hi hb hsp hhigh hlow hmodest

theorem Activation.within (h : Activation caller m) : Within code caller (sp - count) m := by
  induction h with
  | enter hstep hin =>
    exact (within_of_call hcode hprogram hheap hi hb hsp (by omega) hhigh hstep).2
  | @step m m' h hstep hin ih =>
    obtain ⟨inner, sp', lcl, arg, depth, hlevel⟩ := ih
    obtain ⟨-, hwithin | hresumed⟩ := hlevel.step_within hcode (by omega)
      (hlevel.le_of_modest (hmodest m h)) hplaced (hmodest m h).stores hstep
    · exact hwithin
    · rw [hresumed.frames] at hin
      omega

theorem Activation.resumed (h : Activation caller m) (hstep : Machine.step.run m = .ok r m')
    (hback : m'.frames.length ≤ caller.frames.length) :
    r = none ∧ sp - count ≤ heapBase ∧ Resumed caller (sp - count) m' := by
  obtain ⟨inner, sp', lcl, arg, depth, hlevel⟩ := h.within hcode hplaced hprogram hheap hi hb hsp hhigh
    hlow hmodest
  have hle := hlevel.le_of_modest (hmodest m h)
  obtain ⟨hr, hwithin | hresumed⟩ :=
    hlevel.step_within hcode (by omega) hle hplaced (hmodest m h).stores hstep
  · have := hwithin.length_lt
    omega
  · have := hlevel.nested.le
    have := hlevel.arg_le
    have := hlevel.le
    exact ⟨hr, by omega, hresumed⟩

end Activation

/-- A call that enters a function comes back with one value in place of its arguments, and with
everything else of the caller as it was, if the arguments lie above the first three registers and
nothing below the heap is stored to from outside. -/
theorem resumed_of_return {sources texts : List String} {m₀ : Machine} {name : String}
    {count : Nat} (hc : sources.mapM compileText = .ok texts)
    (hl : load (String.join texts) = .ok m₀) (hrunning : Running m₀ caller)
    (hi : caller.instruction? = some (.call name count)) (hb : builtin? name count = none)
    (hlow : count + 2 < (caller.word 0).toInt) (hmodest : ∀ m, Activation caller m → m.Modest)
    (h : Activation caller m) (hstep : step.run m = .ok r m')
    (hback : m'.frames.length ≤ caller.frames.length) :
    r = none ∧ (m'.word 0).toInt = (caller.word 0).toInt - count + 1 ∧
      (∀ register : Register, register ≠ .sp →
        m'.word register.address = caller.word register.address) ∧
      m'.frames = caller.frames ∧ m'.function = caller.function ∧ m'.pc = caller.pc + 1 ∧
      ∀ a : Nat, stackBase ≤ a → a < (caller.word 0).toInt - count → m'.word a = caller.word a := by
  obtain ⟨ks, hks, -, rfl⟩ := exists_classes_of_load hc hl
  have hcompiles : ∀ k ∈ ks, k.Scoped := by
    intro k hk
    obtain ⟨i, hi, rfl⟩ := List.getElem_of_mem hk
    exact (hks.get (by rw [hks.length_eq]; exact hi) hi).rules
  have hcode : Settled (ks.flatMap (·.code)) := settled_flatMap hcompiles
  have hplaced : ∀ segment index, .pop segment index ∈ ks.flatMap (·.code) →
      WellPlaced segment index := by
    intro segment index hmem
    obtain ⟨k, -, hmem⟩ := List.mem_flatMap.1 hmem
    exact wellPlaced_of_mem hmem
  obtain ⟨sp, hhigh, hsp⟩ := exists_saturate (w := caller.word 0) (Int16.le_iff_toInt_le.2 (by
    rw [Int16.toInt_zero]
    omega))
  rw [hsp, toInt_saturate hhigh] at hlow ⊢
  obtain ⟨hr, hbase, hresumed⟩ := h.resumed hcode hplaced hrunning.grown.program
    hrunning.grown.heapEnd hi hb hsp hhigh (by omega) hmodest hstep hback
  simp only [heapBase] at hbase
  refine ⟨hr, ?_, fun register hne => ?_, hresumed.frames, hresumed.function, hresumed.pc,
    fun a ha hlt => hresumed.cells a ha (by omega)⟩
  · rw [hresumed.sp_eq, toInt_saturate (by omega)]
    omega
  · cases register with
    | sp => exact absurd rfl hne
    | lcl | arg | this | that => exact hresumed.registers _ (by decide) (by decide)

/-! ## One call above the registers, and one among them -/

def sevenSource : String :=
  "class A \x7b field int f; function int low() { let f = 2; do A.seven(); return f; } " ++
    "function int high() { return A.seven(); } function int seven() { return 7; } \x7d"

def lowSubroutine : SubroutineDeclaration where
  kind := .function
  returnType := some .int
  name := "low"
  parameters := []
  locals := []
  body := .cons (.assign "f" (.term (.integer 2))) (.cons (.call (.qualified "A" "seven" .nil))
    (.cons (.giveBack (some (.term (.variable "f")))) .nil))

def highSubroutine : SubroutineDeclaration where
  kind := .function
  returnType := some .int
  name := "high"
  parameters := []
  locals := []
  body := .cons (.giveBack (some (.term (.call (.qualified "A" "seven" .nil))))) .nil

def sevenSubroutine : SubroutineDeclaration where
  kind := .function
  returnType := some .int
  name := "seven"
  parameters := []
  locals := []
  body := .cons (.giveBack (some (.term (.integer 7)))) .nil

/-- In the beginning no object is bound, so that `low` stores to the stack pointer. -/
def sevenClass : ClassDeclaration where
  name := "A"
  declarations := [⟨.ofObject, ⟨.int, "f", []⟩⟩]
  subroutines := [lowSubroutine, highSubroutine, sevenSubroutine]

def sevenCode : List Instruction :=
  [.function "A.low" 0, .push .constant 2, .pop .this 0, .call "A.seven" 0, .pop .temp 0,
    .push .this 0, .command .ret,
    .function "A.high" 0, .call "A.seven" 0, .command .ret,
    .function "A.seven" 0, .push .constant 7, .command .ret]

def sevenProgram : Program := .ofInstructions sevenCode

theorem sevenClass_code : sevenClass.code = sevenCode := by decide

theorem sevenClass_compiles : sevenClass.Compiles (.ofString sevenSource) := by
  unfold sevenSource Source.ofString
  simp only [String.toList_append, String.reduceToList]
  decide +kernel

theorem compileText_seven : [sevenSource].mapM compileText = .ok [Instruction.listing sevenCode] := by
  rw [← sevenClass_code]
  exact mapM_compileText (.cons sevenClass_compiles .nil)

theorem load_seven :
    load (String.join [Instruction.listing sevenCode]) = .ok (ofProgram sevenProgram) := by
  rw [sevenProgram, ← sevenClass_code]
  exact load_of_compiles sevenClass_compiles (by decide)

theorem functions_low : sevenProgram.functions["A.low"]? = some 0 :=
  Program.functions_of_getElem? rfl (by decide)

theorem functions_high : sevenProgram.functions["A.high"]? = some 7 :=
  Program.functions_of_getElem? rfl (by decide)

theorem functions_seven : sevenProgram.functions["A.seven"]? = some 10 :=
  Program.functions_of_getElem? rfl (by decide)

theorem instruction?_seven {i : Instruction} (hp : m.program = sevenProgram)
    (hi : sevenCode[m.pc]? = some i) : m.instruction? = some i :=
  (instruction?_of_program hp).trans hi

theorem storeAddress?_seven {i : Instruction} (hp : m.program = sevenProgram)
    (hi : sevenCode[m.pc]? = some i) (hmem : i ∈ sevenCode.drop 10) : m.storeAddress? = none := by
  rw [storeAddress?, instruction?_seven hp hi]
  obtain rfl | rfl | rfl : i = .function "A.seven" 0 ∨ i = .push .constant 7 ∨ i = .command .ret := by
    simpa [sevenCode] using hmem
  all_goals simp [Routine.call]

/-- The machine behind the entry of `seven`. -/
def sevenEntered (caller : Machine) : Machine :=
  caller.next.entered "A.seven" 0 (some (caller.pc + 1)) 10

/-- The machine with the seven on its stack. -/
def sevenPushed (caller : Machine) (sp : Nat) : Machine :=
  (sevenEntered caller).next.next.pushed sp 7

theorem program_sevenPushed (caller : Machine) (sp : Nat) :
    (sevenPushed caller sp).program = caller.program := by
  rw [sevenPushed, pushed, lowered, program_put, program_put]
  rfl

section Seven

variable {sp arg : Nat} (hp : caller.program = sevenProgram) (hsp : caller.word 0 = saturate sp)
  (hlow : 2 ≤ sp) (hhigh : sp ≤ 2000)

include hsp hhigh

theorem word_sevenEntered (a : Nat) : (sevenEntered caller).word a =
    if a = 1 ∨ a = 2 then saturate sp else caller.word a := by
  have hnext : caller.next.word 0 = saturate sp := hsp
  have hzero : saturate sp - saturate 0 = saturate sp := saturate_sub (by omega) (by omega)
  rw [sevenEntered, word_entered, hnext, hzero]
  by_cases h1 : a = 1
  · simp [h1]
  · by_cases h2 : a = 2
    · simp [h2]
    · simp only [h1, h2, if_false, or_self]
      rfl

theorem word_sevenPushed (a : Nat) : (sevenPushed caller sp).word a =
    if a = 0 then saturate (sp + 1) else if a = sp then 7
    else if a = 1 ∨ a = 2 then saturate sp else caller.word a := by
  rw [sevenPushed, word_pushed _ _ (by omega), ← word_sevenEntered hsp hhigh]
  rfl

include hp

theorem step_callSeven (hi : caller.instruction? = some (.call "A.seven" 0)) :
    step.run caller = .ok none (sevenEntered caller) := by
  have hentry : caller.program.functions["A.seven"]? = some 10 := by rw [hp, functions_seven]
  exact @run_step_function caller "A.seven" sp 0 hsp (by omega) 10 hi (by decide) hentry

omit hsp hhigh in
theorem step_sevenEntered :
    step.run (sevenEntered caller) = .ok none (sevenEntered caller).next := by
  have hi : (sevenEntered caller).instruction? = some (.function "A.seven" 0) :=
    instruction?_seven hp rfl
  exact run_step_entry hi

include hlow

theorem step_sevenNext :
    step.run (sevenEntered caller).next = .ok none (sevenPushed caller sp) := by
  have hstack : (sevenEntered caller).next.word 0 = saturate sp :=
    (word_sevenEntered hsp hhigh 0).trans hsp
  have hi : (sevenEntered caller).next.instruction? = some (.push .constant 7) :=
    instruction?_seven hp rfl
  have hread : (readElement .constant 7).run (sevenEntered caller).next.next =
      .ok 7 (sevenEntered caller).next.next := rfl
  exact run_step_push hi hread hstack (by omega)

/-- The return goes by what is then in the register of the arguments. -/
theorem step_sevenPushed (harg : (sevenPushed caller sp).word 2 = saturate arg) (hle : arg ≤ 32767) :
    step.run (sevenPushed caller sp) = .ok none ((sevenPushed caller sp).next.returned arg 7
      (caller.next.frame (some (caller.pc + 1))) caller.frames) := by
  have hstack : (sevenPushed caller sp).next.word 0 = saturate (sp + 1) := by
    rw [word_next, word_sevenPushed hsp hhigh, if_pos rfl]
  have hvalue : (sevenPushed caller sp).next.word sp = 7 := by
    rw [word_next, word_sevenPushed hsp hhigh, if_neg (by omega), if_pos rfl]
  rw [← word_next] at harg
  have hframes : (sevenPushed caller sp).next.frames =
    caller.next.frame (some (caller.pc + 1)) :: caller.frames := rfl
  have hrun := run_leaveFunction hstack (by omega) (by omega) harg hle hframes
  rw [hvalue] at hrun
  have hi : (sevenPushed caller sp).instruction? = some (.command .ret) :=
    instruction?_seven ((program_sevenPushed caller sp).trans hp) rfl
  rw [run_step hi]
  exact hrun

/-- There are three machines in the activation. -/
theorem Activation.eq_of_seven (hi : caller.instruction? = some (.call "A.seven" 0))
    (h : Activation caller m) : m = sevenEntered caller ∨ m = (sevenEntered caller).next ∨
      m = sevenPushed caller sp := by
  induction h with
  | enter hstep hin =>
    rw [step_callSeven hp hsp hhigh hi] at hstep
    cases hstep
    exact .inl rfl
  | step h hstep hin ih =>
    obtain rfl | rfl | rfl := ih
    · rw [step_sevenEntered hp] at hstep
      cases hstep
      exact .inr (.inl rfl)
    · rw [step_sevenNext hp hsp hlow hhigh] at hstep
      cases hstep
      exact .inr (.inr rfl)
    · obtain ⟨arg, hle, harg⟩ : ∃ arg ≤ 32767, (sevenPushed caller sp).word 2 = saturate arg := by
        rw [word_sevenPushed hsp hhigh]
        by_cases h2 : sp = 2
        · exact ⟨7, by decide, by rw [if_neg (by decide), if_pos h2.symm]; rfl⟩
        · exact ⟨sp, by omega, by rw [if_neg (by decide), if_neg (Ne.symm h2), if_pos (.inr rfl)]⟩
      rw [step_sevenPushed hp hsp hlow hhigh harg hle] at hstep
      cases hstep
      simp at hin

theorem activation_sevenPushed (hi : caller.instruction? = some (.call "A.seven" 0)) :
    Activation caller (sevenPushed caller sp) := by
  have hdeeper : caller.frames.length < (sevenEntered caller).frames.length := Nat.lt_succ_self _
  exact ((Activation.enter (step_callSeven hp hsp hhigh hi) hdeeper).step (step_sevenEntered hp)
    hdeeper).step (step_sevenNext hp hsp hlow hhigh) hdeeper

theorem modest_of_seven (hi : caller.instruction? = some (.call "A.seven" 0))
    (h : Activation caller m) : m.Modest := by
  have hword : m.word 0 = saturate sp ∨ m.word 0 = saturate (sp + 1) := by
    obtain rfl | rfl | rfl := h.eq_of_seven hp hsp hlow hhigh hi
    · exact .inl ((word_sevenEntered hsp hhigh 0).trans hsp)
    · exact .inl ((word_sevenEntered hsp hhigh 0).trans hsp)
    · exact .inr ((word_sevenPushed hsp hhigh 0).trans (if_pos rfl))
  have hstores : m.storeAddress? = none := by
    obtain rfl | rfl | rfl := h.eq_of_seven hp hsp hlow hhigh hi
    · exact storeAddress?_seven (i := .function "A.seven" 0) hp rfl (by decide)
    · exact storeAddress?_seven (i := .push .constant 7) hp rfl (by decide)
    · exact storeAddress?_seven (i := .command .ret) ((program_sevenPushed caller sp).trans hp) rfl
        (by decide)
  refine ⟨by simp [hstores], ?_⟩
  obtain h | h := hword <;> rw [h, toInt_saturate (by omega)] <;> omega

end Seven

/-- The machine before the call in `high`. -/
def highCaller : Machine := ((ofProgram sevenProgram).entered "A.high" 0 none 7).next

theorem running_highCaller : Running (ofProgram sevenProgram) highCaller := by
  have henter := run_enterFunction (m := ofProgram sevenProgram) 0 none functions_high
  have hi : ((ofProgram sevenProgram).entered "A.high" 0 none 7).instruction? =
      some (.function "A.high" 0) := instruction?_seven rfl rfl
  exact (Running.enter .loaded henter).step (run_step_entry hi)

/-- A call above the registers comes back. -/
theorem resumed_high : ∃ m, Activation highCaller m ∧ ∃ m',
    Machine.step.run m = .ok none m' ∧ (m'.word 0).toInt = (highCaller.word 0).toInt + 1 := by
  have hi : highCaller.instruction? = some (.call "A.seven" 0) := instruction?_seven rfl rfl
  have hword : ∀ a, highCaller.word a = if a = 1 ∨ a = 2 then saturate 256
      else (ofProgram sevenProgram).word a := by
    intro a
    rw [highCaller, word_next, word_entered, word_ofProgram 0, if_pos rfl,
      saturate_sub (by decide) (by decide)]
    grind
  have hsp : highCaller.word 0 = saturate 256 := by rw [hword, word_ofProgram]; rfl
  have harg : (sevenPushed highCaller 256).word 2 = saturate 256 := by
    rw [word_sevenPushed hsp (by decide), if_neg (by decide), if_neg (by decide), if_pos (.inr rfl)]
  have h := activation_sevenPushed rfl hsp (by decide) (by decide) hi
  have hstep := step_sevenPushed rfl hsp (by decide) (by decide) harg (by decide)
  have hlow : (0 : Nat) + 2 < (highCaller.word 0).toInt := by rw [hsp]; decide
  have hback := resumed_of_return compileText_seven load_seven running_highCaller hi (by decide) hlow
    (fun m h => modest_of_seven rfl hsp (by decide) (by decide) hi h) h hstep (by simp)
  exact ⟨_, h, _, hstep, by simpa using hback.2.1⟩

/-- The machine before the call in `low`, with a two for the stack pointer. -/
def lowCaller : Machine :=
  ((((ofProgram sevenProgram).entered "A.low" 0 none 0).next.next.pushed 256 2).next.lowered 256).put 0 2

theorem running_lowCaller : Running (ofProgram sevenProgram) lowCaller := by
  have henter := run_enterFunction (m := ofProgram sevenProgram) 0 none functions_low
  obtain ⟨m₁, hm₁⟩ : ∃ m₁, m₁ = (ofProgram sevenProgram).entered "A.low" 0 none 0 := ⟨_, rfl⟩
  have hword : ∀ a, a = 0 ∨ a = 3 → m₁.word a = if a = 0 then saturate 256 else 0 := by
    intro a ha
    rw [hm₁, word_entered, ← @word_ofProgram sevenProgram, if_neg (by omega), if_neg (by omega)]
  have hsp : m₁.next.word 0 = saturate 256 := hword 0 (.inl rfl)
  have hrunning : Running (ofProgram sevenProgram) m₁ := hm₁ ▸ .enter .loaded henter
  have hprogram : m₁.program = sevenProgram := by rw [hm₁]; rfl
  have hpc : m₁.pc = 0 := by rw [hm₁]; rfl
  have hfunction : step.run m₁ = .ok none m₁.next := by
    have hi : m₁.instruction? = some (.function "A.low" 0) :=
      instruction?_seven hprogram (by rw [hpc]; rfl)
    exact run_step_entry hi
  have hpush : step.run m₁.next = .ok none (m₁.next.next.pushed 256 2) := by
    have hi : m₁.next.instruction? = some (.push .constant 2) :=
      instruction?_seven hprogram (by rw [next, hpc]; rfl)
    have hread : (readElement .constant 2).run m₁.next.next = .ok 2 m₁.next.next := rfl
    exact run_step_push hi hread hsp (by decide)
  have hpop : step.run (m₁.next.next.pushed 256 2) =
      .ok none (((m₁.next.next.pushed 256 2).next.lowered 256).put 0 2) := by
    have hi : (m₁.next.next.pushed 256 2).instruction? = some (.pop .this 0) :=
      instruction?_seven hprogram (by rw [pushed, lowered, pc_put, pc_put, next, next, hpc]; rfl)
    have hstack : (m₁.next.next.pushed 256 2).word 0 = saturate 257 := by
      rw [word_pushed _ _ (by decide), if_pos rfl]
    have hvalue : (m₁.next.next.pushed 256 2).word 256 = 2 := by
      rw [word_pushed _ _ (by decide), if_neg (by decide), if_pos rfl]
    have hthis : ((m₁.next.next.pushed 256 2).next.lowered 256).word 3 = saturate 0 := by
      rw [word_lowered, if_neg (by decide), word_next, word_pushed _ _ (by decide),
        if_neg (by decide), if_neg (by decide)]
      exact hword 3 (.inr rfl)
    have hlocate := @run_locate_of_base _ .this .this 0 0 rfl hthis (by decide)
    rw [run_step_pop hi hlocate (by decide) hstack (by decide) (by decide), hvalue]
  have hcaller : lowCaller = ((m₁.next.next.pushed 256 2).next.lowered 256).put 0 2 := by
    rw [hm₁, lowCaller]
  rw [hcaller]
  exact ((hrunning.step hfunction).step hpush).step hpop

/-- Among the registers it does not: what the function pushes comes to lie on the register of its
arguments. -/
theorem not_resumed_low : ¬ ∀ (sources texts : List String) (m₀ caller m m' : Machine) (name : String)
    (count : Nat) (r : Option Word), sources.mapM compileText = .ok texts →
    load (String.join texts) = .ok m₀ → Running m₀ caller →
    caller.instruction? = some (.call name count) → builtin? name count = none →
    (∀ m, Activation caller m → m.Modest) → Activation caller m → Machine.step.run m = .ok r m' →
    m'.frames.length ≤ caller.frames.length →
    (m'.word 0).toInt = (caller.word 0).toInt - count + 1 := by
  intro h
  have hi : lowCaller.instruction? = some (.call "A.seven" 0) := instruction?_seven rfl rfl
  have hsp : lowCaller.word 0 = saturate 2 := word_put_of_lt 0 2 (by decide)
  have harg : (sevenPushed lowCaller 2).word 2 = saturate 7 := by
    rw [word_sevenPushed hsp (by decide)]
    rfl
  have hact := activation_sevenPushed rfl hsp (by decide) (by decide) hi
  have hstep := step_sevenPushed rfl hsp (by decide) (by decide) harg (by decide)
  have hback := h _ _ _ _ _ _ _ _ _ compileText_seven load_seven running_lowCaller hi (by decide)
    (fun m h => modest_of_seven rfl hsp (by decide) (by decide) hi h) hact hstep (by simp)
  rw [word_returned _ _ _ (by decide), hsp] at hback
  exact absurd hback (by decide)

end Jack.Machine

import Jack.Proofs.Shelter

/-!
# Levels of calls

Once an activation has begun, the machine is in it or in one that was begun inside it (`Level`): every
activation stands above the values that its caller has left on the stack, as many as the depth of the
code says. A step keeps this, or the first activation is left (`Level.step`). Where that was begun by
a call, the machine is then back with the caller (`Level.step_within`).
-/

namespace Jack.Machine

variable {code : List Instruction} {before caller m m' : Machine} {bottom inner : List Frame}
  {base sp lcl arg depth : Nat} {r : Option Word}

/-! ## Levels -/

/-- The calls inside an activation that begins at the base, the latest first. The arguments of each
lie above what the one before it has on the stack; the value is to be found there. -/
def Nested (code : List Instruction) (base : Nat) : Nat → List Frame → Prop
  | arg, [] => arg = base
  | arg, f :: fs => ∃ arg' lcl pc depth, f.returnAddress = some pc ∧ f.arg = saturate arg' ∧
      f.lcl = saturate lcl ∧ arg' ≤ lcl ∧ depthAt code pc = some (depth + 1) ∧ lcl + depth ≤ arg ∧
      Nested code base arg' fs

theorem Nested.le (h : Nested code base arg inner) : base ≤ arg := by
  induction inner generalizing arg with
  | nil => exact Nat.le_of_eq h.symm
  | cons f fs ih =>
    obtain ⟨arg', lcl, pc, depth, -, -, -, hle, -, hle', hfs⟩ := h
    have := ih hfs
    omega

/-- The machine is in the activation above the bottom, with these calls inside it, and the cells below
the base are as they were before. -/
structure Level (code : List Instruction) (before : Machine) (bottom : List Frame) (base : Nat)
    (inner : List Frame) (sp lcl arg depth : Nat) (m : Machine) : Prop where
  program : m.program = .ofInstructions code
  heap : heapBase ≤ m.heapEnd
  cells : ∀ a, stackBase ≤ a → a < base → m.word a = before.word a
  frames : m.frames = inner ++ bottom
  nested : Nested code base arg inner
  sp_eq : m.word 0 = saturate sp
  lcl_eq : m.word 1 = saturate lcl
  arg_eq : m.word 2 = saturate arg
  arg_le : arg ≤ lcl
  depth_eq : depthAt code m.pc = some depth
  le : lcl + depth ≤ sp
  high : sp ≤ 32767

/-- The machine is in the activation above the bottom, or in a call inside it. -/
def Inside (code : List Instruction) (before : Machine) (bottom : List Frame) (base : Nat)
    (m : Machine) : Prop :=
  ∃ inner sp lcl arg depth, Level code before bottom base inner sp lcl arg depth m

/-- The frames of an activation that the caller's next instruction begins. -/
abbrev called (caller : Machine) : List Frame := caller.frame (some (caller.pc + 1)) :: caller.frames

/-- The machine carries out a call of the caller. -/
abbrev Within (code : List Instruction) (caller : Machine) (base : Nat) (m : Machine) : Prop :=
  Inside code caller caller.called base m

/-- The activation has been left for the frame that it was entered from. -/
structure Left (before : Machine) (f : Frame) (fs : List Frame) (base : Nat) (r : Option Word)
    (m : Machine) : Prop where
  frames : m.frames = fs
  sp_eq : m.word 0 = saturate (base + 1)
  lcl : m.word 1 = f.lcl
  arg : m.word 2 = f.arg
  this : m.word 3 = f.this
  that : m.word 4 = f.that
  function : m.function = f.function
  pc : ∀ pc ∈ f.returnAddress, m.pc = pc
  cells : ∀ a, stackBase ≤ a → a < base → m.word a = before.word a
  value : r.isNone = f.returnAddress.isSome

/-- The call has been carried out. -/
structure Resumed (caller : Machine) (base : Nat) (m : Machine) : Prop where
  frames : m.frames = caller.frames
  sp_eq : m.word 0 = saturate (base + 1)
  registers : ∀ a, 1 ≤ a → a ≤ 4 → m.word a = caller.word a
  function : m.function = caller.function
  pc : m.pc = caller.pc + 1
  cells : ∀ a, stackBase ≤ a → a < base → m.word a = caller.word a

theorem Inside.length_le (h : Inside code before bottom base m) : bottom.length ≤ m.frames.length := by
  obtain ⟨inner, sp, lcl, arg, depth, h⟩ := h
  rw [h.frames, List.length_append]
  exact Nat.le_add_left ..

theorem Within.length_lt (h : Within code caller base m) : caller.frames.length < m.frames.length :=
  Inside.length_le h

theorem Left.resumed (h : Left caller (caller.frame (some (caller.pc + 1))) caller.frames base r m) :
    r = none ∧ Resumed caller base m where
  left := Option.isNone_iff_eq_none.1 h.value
  right :=
    { frames := h.frames
      sp_eq := h.sp_eq
      registers := fun a h1 h4 => by
        obtain rfl | rfl | rfl | rfl : a = 1 ∨ a = 2 ∨ a = 3 ∨ a = 4 := by omega
        · exact h.lcl
        · exact h.arg
        · exact h.this
        · exact h.that
      function := h.function
      pc := h.pc _ rfl
      cells := h.cells }

namespace Level

theorem spans (h : Level code before bottom base inner sp lcl arg depth m) (hbase : 2 < base)
    (hhigh : sp ≤ heapBase) : Spans base arg lcl sp m.next where
  sp_eq := h.sp_eq
  lcl_eq := h.lcl_eq
  arg_eq := h.arg_eq
  base_pos := hbase
  base_le := h.nested.le
  arg_le := h.arg_le
  lcl_le := Nat.le_trans (Nat.le_add_right _ _) h.le
  high := hhigh

/-- Work in the activation keeps its level. -/
theorem of_worksTo {sp' depth' : Nat} (h : Level code before bottom base inner sp lcl arg depth m)
    (hw : WorksTo base sp' m.next m') (hd : depthAt code m'.pc = some depth')
    (hle : lcl + depth' ≤ sp') : Level code before bottom base inner sp' lcl arg depth' m' where
  program := hw.program.trans h.program
  heap := Nat.le_trans h.heap hw.heapEnd
  cells a ha hb := (hw.cells a ha hb).trans (h.cells a ha hb)
  frames := hw.frames.trans h.frames
  nested := h.nested
  sp_eq := hw.sp_eq
  lcl_eq := hw.lcl.trans h.lcl_eq
  arg_eq := hw.arg.trans h.arg_eq
  arg_le := h.arg_le
  depth_eq := hd
  le := hle
  high := hw.high

end Level

/-! ## Steps -/

theorem eq_call_of_builtin? {name : String} {count : Nat}
    (h : builtin? name count = some .stringAppendChar) :
    Instruction.call name count = Routine.stringAppendChar.call := by
  obtain ⟨hr, harity⟩ := Option.filter_eq_some_iff.1 h
  obtain rfl : 2 = count := of_decide_eq_true harity
  unfold routineOf? at hr
  split at hr
  · simp at hr
  · have := List.find?_some hr
    simp only [beq_iff_eq] at this
    rw [← this]
    rfl

/-- The string that a character is appended to lies in the heap if stores do. -/
theorem le_of_appendChar {name : String} {count : Nat}
    (hi : m.instruction? = some (.call name count))
    (hb : builtin? name count = some .stringAppendChar) (hsp : m.word 0 = saturate sp)
    (hle : sp ≤ 32767) (hstores : ∀ a ∈ m.storeAddress?, 2048 ≤ a) :
    2048 ≤ (m.word (sp - 2)).toInt := by
  refine hstores _ ?_
  have htop : (m.word 0).toInt.toNat = sp := by rw [hsp, toInt_saturate hle, Int.toNat_natCast]
  rw [storeAddress?, hi, eq_call_of_builtin? hb, ← htop]
  rfl

/-- A jump is to a label, where nothing is left on the stack. -/
theorem Level.jump {name : String} (h : Level code before bottom base inner sp lcl arg 0 m)
    (hcode : Settled code) (hrun : (jumpTo name).run m = .ok () m') :
    Inside code before bottom base m' := by
  rw [run_jumpTo_eq] at hrun
  cases hl : m.program.labels[(m.function, name)]? with
  | none => simp [hl] at hrun
  | some pc =>
    simp only [hl, EStateM.Result.ok.injEq, true_and] at hrun
    subst hrun
    rw [h.program, Program.labels_eq_some] at hl
    exact ⟨inner, sp, lcl, arg, 0, { h with depth_eq := hcode.depthAt_label hl.1.1 }⟩

/-- A call begins an activation above what is left on the stack. -/
theorem inside_of_enterFunction {name : String} {count : Nat} {returnAddress : Option Nat}
    (hcode : Settled code) (hprogram : m.program = .ofInstructions code)
    (hheap : heapBase ≤ m.heapEnd)
    (hcells : ∀ a, stackBase ≤ a → a < base → m.word a = before.word a)
    (hframes : m.frame returnAddress :: m.frames = inner ++ bottom)
    (hnested : Nested code base (sp - count) inner) (hsp : m.word 0 = saturate sp)
    (hle : count ≤ sp) (hhigh : sp ≤ 32767)
    (hrun : (enterFunction name count returnAddress).run m = .ok () m') :
    Inside code before bottom base m' := by
  cases hf : m.program.functions[name]? with
  | none => simp [run_enterFunction_of_none count _ hf] at hrun
  | some entry =>
    rw [run_enterFunction count _ hf] at hrun
    cases hrun
    have hword := word_entered m name count returnAddress entry
    rw [hprogram, Program.functions_eq_some] at hf
    obtain ⟨n, hentry⟩ := hf.1
    refine ⟨inner, sp, sp, sp - count, 0, hprogram, hheap, fun a ha hb => ?_, hframes, hnested,
      ?_, ?_, ?_, by omega, hcode.depthAt_function hentry, by omega, hhigh⟩
    · have hlow := ha
      simp only [stackBase] at hlow
      rw [hword, if_neg (by omega), if_neg (by omega)]
      exact hcells a ha hb
    · rw [hword, if_neg (by decide), if_neg (by decide), hsp]
    · rw [hword, if_pos rfl, hsp]
    · rw [hword, if_neg (by decide), if_pos rfl, hsp, saturate_sub hle hhigh]

/-- A call that enters a function is carried out inside the one that it makes. -/
theorem within_of_call {name : String} {count : Nat} (hcode : Settled code)
    (hprogram : caller.program = .ofInstructions code) (hheap : heapBase ≤ caller.heapEnd)
    (hi : caller.instruction? = some (.call name count)) (hb : builtin? name count = none)
    (hsp : caller.word 0 = saturate sp) (hle : count ≤ sp) (hhigh : sp ≤ 32767)
    (hstep : step.run caller = .ok r m) : r = none ∧ Within code caller (sp - count) m := by
  rw [run_step hi] at hstep
  refine ⟨eq_none_of_run_bind hstep, ?_⟩
  obtain ⟨u, m₁, hcall, hpure⟩ := exists_of_run_bind hstep
  cases hpure
  obtain ⟨f, -, hf⟩ | henter := run_call_of_none hb caller.next
  · simp [hf] at hcall
  · rw [henter] at hcall
    have hframes : caller.next.frame (some (caller.pc + 1)) :: caller.frames = [] ++ caller.called := rfl
    have hsp' : caller.next.word 0 = saturate sp := hsp
    exact inside_of_enterFunction (m := caller.next) hcode hprogram hheap (fun _ _ _ => rfl) hframes rfl
      hsp' hle hhigh hcall

theorem Level.enter {name : String} {count : Nat}
    (h : Level code before bottom base inner sp lcl arg depth m) (hcode : Settled code)
    (hle : count ≤ depth) (hnext : depthAt code (m.pc + 1) = some (depth - count + 1))
    (hrun : (enterFunction name count (some (m.pc + 1))).run m.next = .ok () m') :
    Inside code before bottom base m' := by
  have hfits := h.le
  have hframes : m.next.frame (some (m.pc + 1)) :: m.frames =
      m.next.frame (some (m.pc + 1)) :: inner ++ bottom := by
    rw [List.cons_append, ← h.frames]
  have hsp : m.next.word 0 = saturate sp := h.sp_eq
  have hnested : Nested code base (sp - count) (m.next.frame (some (m.pc + 1)) :: inner) :=
    ⟨arg, lcl, m.pc + 1, depth - count, rfl, h.arg_eq, h.lcl_eq, h.arg_le, hnext, by omega, h.nested⟩
  exact inside_of_enterFunction (m := m.next) hcode h.program h.heap h.cells hframes hnested hsp
    (by omega) h.high hrun

section Steps

variable (h : Level code before bottom base inner sp lcl arg depth m) (hcode : Settled code)
  (hbase : 2 < base) (hhigh : sp ≤ heapBase)

include h

theorem Level.getElem? {i : Instruction} (hi : m.instruction? = some i) :
    code[m.pc]? = some i := by
  rwa [instruction?_of_program h.program] at hi

include hcode hbase hhigh

theorem Level.straight {i : Instruction} (hi : m.instruction? = some i) (hs : Straight i)
    (hplaced : ∀ segment index, .pop segment index ∈ code → WellPlaced segment index)
    (hstores : ∀ a ∈ m.storeAddress?, 2048 ≤ a)
    (hrun : (perform i).run m.next = .ok r m') : r = none ∧ Inside code before bottom base m' := by
  have hspans := h.spans hbase hhigh
  obtain ⟨depth', hdepth, hnext⟩ := hcode.depthAt_succ (h.getElem? hi) h.depth_eq
  have hkept := (contained_perform hs).kept hrun
  rw [← show m'.pc = m.pc + 1 from hkept.pc] at hnext
  have hle := h.le
  refine ⟨eq_none_of_run_perform hs hrun, inner, ?_⟩
  cases i with
  | push segment index =>
    obtain rfl : depth + 1 = depth' := by simpa [Instruction.settle] using hdepth
    exact ⟨_, _, _, _, h.of_worksTo (hspans.push hrun) hnext (by omega)⟩
  | pop segment index =>
    obtain ⟨hd, rfl⟩ : 1 ≤ depth ∧ depth - 1 = depth' := by
      simpa [Instruction.settle] using hdepth
    have hwell := hplaced segment index (List.mem_of_getElem? (h.getElem? hi))
    have hthis : segment = .this → 2048 ≤ (m.word 3).toInt + index := by
      rintro rfl
      exact hstores _ (by rw [storeAddress?, hi]; rfl)
    have hthat : segment = .that → 2048 ≤ (m.word 4).toInt + index := by
      rintro rfl
      exact hstores _ (by rw [storeAddress?, hi]; rfl)
    exact ⟨_, _, _, _, h.of_worksTo (hspans.pop (by omega) hwell hthis hthat hrun) hnext (by omega)⟩
  | command action =>
    obtain ⟨sp', hle', hw⟩ := hspans.command hs hdepth h.le hrun
    exact ⟨_, _, _, _, h.of_worksTo hw hnext hle'⟩
  | label name =>
    obtain ⟨rfl, rfl⟩ : depth = 0 ∧ 0 = depth' := by simpa [Instruction.settle] using hdepth
    cases hrun
    exact ⟨_, _, _, _, h.of_worksTo ⟨.refl base _, h.sp_eq, h.high⟩ hnext hle⟩
  | function name count =>
    obtain ⟨rfl, rfl⟩ : depth = 0 ∧ 0 = depth' := by simpa [Instruction.settle] using hdepth
    exact ⟨_, _, _, _, h.of_worksTo (hspans.function hrun) hnext (by omega)⟩
  | goto | ifGoto | call => exact hs.elim

theorem Level.ifGoto {name : String} (hi : m.instruction? = some (.ifGoto name))
    (hrun : (perform (.ifGoto name)).run m.next = .ok r m') :
    r = none ∧ Inside code before bottom base m' := by
  have hspans := h.spans hbase hhigh
  obtain ⟨depth', hdepth, hnext⟩ := hcode.depthAt_succ (h.getElem? hi) h.depth_eq
  obtain ⟨rfl, rfl⟩ : depth = 1 ∧ 0 = depth' := by simpa [Instruction.settle] using hdepth
  have hle := h.le
  simp only [heapBase] at hhigh
  obtain ⟨k, rfl⟩ : ∃ k, sp = k + 1 := ⟨sp - 1, by omega⟩
  have hpos := hspans.base_pos
  have hb := hspans.base_le
  have ha := hspans.arg_le
  rw [perform, run_bind, run_pop_of_pushed hspans.sp_eq (by omega) (by omega)] at hrun
  -- both ways go on with nothing left of the condition
  have hlow : Level code before bottom base inner k lcl arg 0 (m.next.lowered k) :=
    h.of_worksTo ⟨.lowered base _ k, by rw [word_lowered, if_pos rfl], by omega⟩ hnext (by omega)
  by_cases hv : m.next.word k ≠ 0
  · simp only [if_pos hv] at hrun
    obtain ⟨u, m₁, hjump, hpure⟩ := exists_of_run_bind hrun
    cases hpure
    exact ⟨rfl, hlow.jump hcode hjump⟩
  · simp only [if_neg hv] at hrun
    cases hrun
    exact ⟨rfl, _, _, _, _, _, hlow⟩

theorem Level.call {name : String} {count : Nat} (hi : m.instruction? = some (.call name count))
    (hstores : ∀ a ∈ m.storeAddress?, 2048 ≤ a)
    (hrun : (perform (.call name count)).run m.next = .ok r m') :
    r = none ∧ Inside code before bottom base m' := by
  have hspans := h.spans hbase hhigh
  obtain ⟨hcount, hnext⟩ := hcode.depthAt_call (h.getElem? hi) h.depth_eq
  have hle := h.le
  refine ⟨eq_none_of_run_bind hrun, ?_⟩
  cases hb : builtin? name count with
  | some routine =>
    have happend : routine = .stringAppendChar → 2048 ≤ (m.word (sp - 2)).toInt := by
      rintro rfl
      exact le_of_appendChar hi hb h.sp_eq h.high hstores
    have hkept := (contained_perform_call hb).kept hrun
    rw [← show m'.pc = m.pc + 1 from hkept.pc] at hnext
    exact ⟨_, _, _, _, _, h.of_worksTo (hspans.routine hb (by omega) h.heap happend hrun) hnext
      (by omega)⟩
  | none =>
    obtain ⟨u, m₁, hcall, hpure⟩ := exists_of_run_bind hrun
    cases hpure
    obtain ⟨f, -, hf⟩ | henter := run_call_of_none hb m.next
    · simp [hf] at hcall
    · rw [henter] at hcall
      exact h.enter hcode hcount hnext hcall

omit hcode in
/-- A return goes back to the latest call, or leaves the first activation. -/
theorem Level.leave (hrun : leaveFunction.run m.next = .ok r m') :
    r = none ∧ Inside code before bottom base m' ∨
      ∃ f fs, bottom = f :: fs ∧ m.frames = f :: fs ∧ Left before f fs base r m' := by
  have hspans := h.spans hbase hhigh
  have hb := hspans.base_le
  have ha := hspans.arg_le
  have hl := hspans.lcl_le
  simp only [heapBase] at hhigh
  obtain ⟨k, rfl⟩ : ∃ k, sp = k + 1 := ⟨sp - 1, by omega⟩
  have hword := fun value frame frames => @word_returned m.next arg value frame frames (by omega)
  have hcells : ∀ value frame frames a, stackBase ≤ a → a < base →
      (m.next.returned arg value frame frames).word a = before.word a := by
    intro value frame frames a hlow hlt
    have hlow' := hlow
    simp only [stackBase] at hlow'
    rw [hword, if_neg (by omega), if_neg (by omega), if_neg (by omega), if_neg (by omega),
      if_neg (by omega), if_neg (by omega)]
    exact h.cells a hlow hlt
  have hframes : m.next.frames = inner ++ bottom := h.frames
  cases inner with
  | nil =>
    cases bottom with
    | nil =>
      have hlow : (m.next.lowered k).frames = [] := hframes
      simp [leaveFunction, popFrame, run_pop_of_pushed hspans.sp_eq (by omega) (by omega), hlow] at hrun
    | cons f fs =>
      rw [run_leaveFunction hspans.sp_eq (by omega) (by omega) hspans.arg_eq (by omega) hframes] at hrun
      simp only [EStateM.Result.ok.injEq] at hrun
      obtain ⟨rfl, rfl⟩ := hrun
      obtain rfl : arg = base := h.nested
      refine .inr ⟨f, fs, rfl, hframes,
        { frames := frames_returned ..
          sp_eq := by rw [hword, if_pos rfl]
          lcl := hword _ _ _ 1
          arg := hword _ _ _ 2
          this := hword _ _ _ 3
          that := hword _ _ _ 4
          function := function_returned ..
          pc := fun pc hpc => by rw [pc_returned, Option.mem_def.1 hpc, Option.getD_some]
          cells := hcells _ _ _
          value := by cases f.returnAddress <;> rfl }⟩
  | cons f fs =>
    obtain ⟨arg', lcl', pc, depth', hpc, hfarg, hflcl, hle, hdepth, hle', hnested⟩ := h.nested
    rw [List.cons_append] at hframes
    rw [run_leaveFunction hspans.sp_eq (by omega) (by omega) hspans.arg_eq (by omega) hframes] at hrun
    simp only [EStateM.Result.ok.injEq] at hrun
    obtain ⟨rfl, rfl⟩ := hrun
    refine .inl ⟨by rw [hpc]; rfl, fs, arg + 1, lcl', arg', depth' + 1,
      (program_returned ..).trans h.program, by rw [heapEnd_returned]; exact h.heap, hcells _ _ _,
      frames_returned .., hnested, ?_, ?_, ?_, hle, ?_, by omega, by omega⟩
    · rw [hword, if_pos rfl]
    · rw [hword, if_neg (by decide), if_pos rfl, hflcl]
    · rw [hword, if_neg (by decide), if_neg (by decide), if_pos rfl, hfarg]
    · rw [pc_returned, hpc]
      exact hdepth

/-- A step keeps to the activation and the calls inside it, or leaves it. -/
theorem Level.step
    (hplaced : ∀ segment index, .pop segment index ∈ code → WellPlaced segment index)
    (hstores : ∀ a ∈ m.storeAddress?, 2048 ≤ a) (hstep : step.run m = .ok r m') :
    r = none ∧ Inside code before bottom base m' ∨
      ∃ f fs, bottom = f :: fs ∧ m.frames = f :: fs ∧ Left before f fs base r m' := by
  cases hi : m.instruction? with
  | none => simp [run_step_of_end hi] at hstep
  | some i =>
    rw [run_step hi] at hstep
    by_cases hs : Straight i
    · exact .inl (h.straight hcode hbase hhigh hi hs hplaced hstores hstep)
    cases i with
    | push | label | function => exact absurd trivial hs
    | pop segment index =>
      have hwell := hplaced segment index (List.mem_of_getElem? (h.getElem? hi))
      obtain rfl : segment = .constant := Decidable.not_not.1 hs
      exact hwell.elim
    | command action =>
      obtain rfl : action = .ret := Decidable.not_not.1 hs
      exact h.leave hbase hhigh hstep
    | goto name =>
      obtain ⟨depth', hdepth, hnext⟩ := hcode.depthAt_succ (h.getElem? hi) h.depth_eq
      obtain ⟨rfl, rfl⟩ : depth = 0 ∧ 0 = depth' := by simpa [Instruction.settle] using hdepth
      obtain ⟨u, m₁, hjump, hpure⟩ := exists_of_run_bind hstep
      cases hpure
      have hlevel : Level code before bottom base inner sp lcl arg 0 m.next :=
        h.of_worksTo ⟨.refl base _, h.sp_eq, h.high⟩ hnext h.le
      exact .inl ⟨rfl, hlevel.jump hcode hjump⟩
    | ifGoto name => exact .inl (h.ifGoto hcode hbase hhigh hi hstep)
    | call name count => exact .inl (h.call hcode hbase hhigh hi hstores hstep)

end Steps

/-- A step keeps to the call or ends it. -/
theorem Level.step_within (h : Level code caller caller.called base inner sp lcl arg depth m)
    (hcode : Settled code) (hbase : 2 < base) (hhigh : sp ≤ heapBase)
    (hplaced : ∀ segment index, .pop segment index ∈ code → WellPlaced segment index)
    (hstores : ∀ a ∈ m.storeAddress?, 2048 ≤ a) (hstep : Machine.step.run m = .ok r m') :
    r = none ∧ (Within code caller base m' ∨ Resumed caller base m') := by
  obtain ⟨hr, hinside⟩ | ⟨f, fs, hbottom, -, hleft⟩ := h.step hcode hbase hhigh hplaced hstores hstep
  · exact ⟨hr, .inl hinside⟩
  · obtain ⟨rfl, rfl⟩ := List.cons.inj hbottom
    obtain ⟨hr, hresumed⟩ := hleft.resumed
    exact ⟨hr, .inr hresumed⟩

end Jack.Machine

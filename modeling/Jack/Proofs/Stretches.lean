import Jack.Proofs.Calculation
import Jack.Proofs.CallingConvention

/-!
# Stretches of code

A machine sets out on the next instructions of its activation (`Underway`), and comes through them
(`Through`), whatever they call meanwhile. Where the instructions calculate and call, it is always
either in its own activation, with as many words above the stack it began with as the code says
(`Abreast`), or in a call above these (`Away`). So what lay on the stack in the beginning is there in
the end (`Through.abreast`).
-/

namespace Jack.Machine

variable {n k : Nat} {start m m' : Machine}

/-! ## Setting out and coming through -/

/-- The machine is in a call, or still before the end of the next instructions from the start. -/
def Among (n : Nat) (start m : Machine) : Prop :=
  m.frames.length = start.frames.length → m.pc < start.pc + n

/-- The machine has set out on the next instructions, and gone no step beyond them. -/
inductive Underway (n : Nat) (start : Machine) : Machine → Prop
  | start : Underway n start start
  | step {m m' : Machine} (h : Underway n start m) (hin : Among n start m)
    (hstep : step.run m = .ok none m') : Underway n start m'

/-- The machine has come to the end of the next instructions. -/
structure Through (n : Nat) (start m : Machine) : Prop where
  underway : Underway n start m
  frames : m.frames.length = start.frames.length
  pc : m.pc = start.pc + n

/-- On the way through the instructions the machine is modest. -/
def Discreet (n : Nat) (start : Machine) : Prop :=
  ∀ m, Underway n start m → Among n start m → m.Modest

theorem Among.mono (h : Among n start m) (hle : n ≤ k) : Among k start m :=
  fun hframes => Nat.lt_of_lt_of_le (h hframes) (Nat.add_le_add_left hle _)

theorem Underway.mono (h : Underway n start m) (hle : n ≤ k) : Underway k start m := by
  induction h with
  | start => exact .start
  | step _ hin hstep ih => exact ih.step (hin.mono hle) hstep

theorem Underway.grown (h : Underway n start m) : Grown start m := by
  induction h with
  | start => exact .refl start
  | @step m m' _ _ hstep ih =>
    have hgrown := grown_step m
    rw [after, hstep] at hgrown
    exact ih.trans hgrown

namespace Through

theorem among (h : Through n start m) (hin : Among k m m') : Among (n + k) start m' := by
  intro hframes
  have := hin (hframes.trans h.frames.symm)
  rw [h.pc] at this
  omega

theorem underway_append (h : Through n start m) (hu : Underway k m m') :
    Underway (n + k) start m' := by
  induction hu with
  | start => exact h.underway.mono (Nat.le_add_right n k)
  | step _ hin hstep ih => exact ih.step (h.among hin) hstep

/-- Who comes through both parts comes to the end of the first on the way, if control does not go
past it. -/
theorem split (h : Through (n + k) start m')
    (hpc : ∀ m, Underway n start m → m.frames.length = start.frames.length → m.pc ≤ start.pc + n) :
    ∃ m, Through n start m ∧ Through k m m' := by
  have hway : ∀ x, Underway (n + k) start x →
      Underway n start x ∨ ∃ m, Through n start m ∧ Underway k m x := by
    intro x hx
    induction hx with
    | start => exact .inl .start
    | @step x x' _ hin hstep ih =>
      rcases ih with hx | ⟨m, hm, hx⟩
      · by_cases hfirst : Among n start x
        · exact .inl (hx.step hfirst hstep)
        · obtain ⟨hframes, hlt⟩ := Classical.not_imp.1 hfirst
          have hle := hpc x hx hframes
          have hthrough : Through n start x := ⟨hx, hframes, by omega⟩
          have hsecond : Among k x x := fun _ => by
            have := hin hframes
            omega
          exact .inr ⟨x, hthrough, .step .start hsecond hstep⟩
      · refine .inr ⟨m, hm, hx.step (fun hframes => ?_) hstep⟩
        have := hin (hframes.trans hm.frames)
        rw [hm.pc]
        omega
  rcases hway m' h.underway with hm' | ⟨m, hm, hm'⟩
  · have hle := hpc m' hm' h.frames
    have hpc' := h.pc
    obtain rfl : k = 0 := by omega
    exact ⟨m', ⟨hm', h.frames, h.pc⟩, .start, rfl, rfl⟩
  · exact ⟨m, hm, hm', h.frames.trans hm.frames.symm, by rw [h.pc, hm.pc, Nat.add_assoc]⟩

end Through

namespace Discreet

theorem head (h : Discreet (n + k) start) : Discreet n start :=
  fun m hu hin => h m (hu.mono (Nat.le_add_right n k)) (hin.mono (Nat.le_add_right n k))

theorem tail (h : Discreet (n + k) start) (hm : Through n start m) : Discreet k m :=
  fun m' hu hin => h m' (hm.underway_append hu) (hm.among hin)

end Discreet

/-! ## Code without calls -/

theorem Placed.getElem? {p : Program} {pc j : Nat} {code : List Instruction} {i : Instruction}
    (h : Placed p pc code) (hi : code[j]? = some i) : p.code[pc + j]? = some i := by
  induction code generalizing pc j with
  | nil => simp at hi
  | cons i' code ih =>
    cases j with
    | zero =>
      obtain rfl := Option.some.inj hi
      exact h.1
    | succ j =>
      rw [show pc + (j + 1) = pc + 1 + j by omega]
      exact ih h.2 hi

/-- Behind the instructions the machine stands at those that come next. -/
theorem Through.placed {stretch rest : List Instruction} (h : Through stretch.length start m)
    (hstands : Placed start.program start.pc (stretch ++ rest)) : Placed m.program m.pc rest := by
  rw [h.pc, h.underway.grown.program]
  exact (placed_append.1 hstands).2

section Straight

variable {stretch : List Instruction} (hstands : Placed start.program start.pc stretch)
  (hs : ∀ i ∈ stretch, Straight i)

include hstands hs

/-- A step among instructions that keep their order goes on to the next one. -/
theorem step_straight {j : Nat} {r : Option Word} (hframes : m.frames = start.frames)
    (hpc : m.pc = start.pc + j) (hprogram : m.program = start.program) (hlt : j < stretch.length)
    (hstep : step.run m = .ok r m') : m.instruction? ≠ some (.command .ret) ∧
      m'.frames = start.frames ∧ m'.pc = start.pc + (j + 1) := by
  have hi : m.instruction? = some stretch[j] := by
    rw [instruction?, hpc, hprogram]
    exact hstands.getElem? (List.getElem?_eq_getElem hlt)
  have hstraight := hs _ (List.getElem_mem hlt)
  have hkept := (contained_perform hstraight).kept ((run_step hi).symm.trans hstep)
  have hnext : m'.pc = m.pc + 1 := hkept.pc
  refine ⟨?_, hkept.frames.trans hframes, by rw [hnext, hpc, Nat.add_assoc]⟩
  rw [hi, ne_eq, Option.some.injEq]
  intro hret
  rw [hret] at hstraight
  exact hstraight rfl

/-- Among such instructions the machine walks. -/
theorem Underway.exists_walk (h : Underway stretch.length start m) :
    ∃ j ≤ stretch.length, Walk j start m ∧ m.frames = start.frames ∧ m.pc = start.pc + j := by
  induction h with
  | start => exact ⟨0, Nat.zero_le _, .refl start, rfl, rfl⟩
  | @step m m' h hin hstep ih =>
    obtain ⟨j, -, hw, hframes, hpc⟩ := ih
    have hlt := hin (congrArg List.length hframes)
    rw [hpc, Nat.add_lt_add_iff_left] at hlt
    obtain ⟨hret, hnext⟩ := step_straight hstands hs hframes hpc h.grown.program hlt hstep
    exact ⟨j + 1, hlt, hw.trans (.single hret hstep), hnext⟩

theorem Underway.of_walk (hw : Walk k start m) (hk : k ≤ stretch.length) :
    Underway stretch.length start m ∧ m.frames = start.frames ∧ m.pc = start.pc + k := by
  induction k generalizing m with
  | zero =>
    cases hw
    exact ⟨.start, rfl, rfl⟩
  | succ k ih =>
    obtain ⟨m₁, hw₁, hlast⟩ := hw.split
    obtain ⟨hu, hframes, hpc⟩ := ih hw₁ (Nat.le_of_succ_le hk)
    cases hlast with
    | step hret hstep hrefl =>
      cases hrefl
      refine ⟨hu.step (fun _ => ?_) hstep,
        (step_straight hstands hs hframes hpc hu.grown.program hk hstep).2⟩
      rw [hpc]
      exact Nat.add_lt_add_left hk _

/-- Such instructions are carried out discreetly if the machine is modest at each of them. -/
theorem Discreet.of_walk (h : ∀ j < stretch.length, ∀ m, Walk j start m → m.Modest) :
    Discreet stretch.length start := by
  intro m hu hin
  obtain ⟨j, -, hw, hframes, hpc⟩ := hu.exists_walk hstands hs
  have hlt := hin (congrArg List.length hframes)
  exact h j (by omega) m hw

theorem Discreet.modest (h : Discreet stretch.length start) (hw : Walk k start m)
    (hk : k < stretch.length) : m.Modest := by
  obtain ⟨hu, -, hpc⟩ := Underway.of_walk hstands hs hw (Nat.le_of_lt hk)
  exact h m hu fun _ => by omega

theorem Through.walk (h : Through stretch.length start m) : Walk stretch.length start m := by
  obtain ⟨j, -, hw, -, hpc⟩ := h.underway.exists_walk hstands hs
  obtain rfl : j = stretch.length := by
    have := h.pc
    omega
  exact hw

theorem Through.split_walk (h : Through (stretch.length + k) start m') :
    ∃ m, Through stretch.length start m ∧ Walk stretch.length start m ∧ Through k m m' := by
  obtain ⟨m, hm, hm'⟩ := h.split fun m hu _ => by
    obtain ⟨j, hj, -, -, hpc⟩ := hu.exists_walk hstands hs
    omega
  exact ⟨m, hm, hm.walk hstands hs, hm'⟩

end Straight

/-! ## Compiled code -/

/-- The machine runs compiled code, and its heap is where it belongs. -/
structure RunsCode (code : List Instruction) (m : Machine) : Prop where
  settled : Settled code
  wellPlaced : ∀ segment index, .pop segment index ∈ code → WellPlaced segment index
  program : m.program = .ofInstructions code
  heap : heapBase ≤ m.heapEnd

theorem RunsCode.grown {code : List Instruction} (h : RunsCode code m) (hg : Grown m m') :
    RunsCode code m' where
  settled := h.settled
  wellPlaced := h.wellPlaced
  program := hg.program.trans h.program
  heap := Nat.le_trans h.heap hg.heapEnd

theorem runsCode_ofProgram {ks : List Syntax.ClassDeclaration}
    (h : ∀ k ∈ ks, ∃ source, k.Compiles source) :
    RunsCode (ks.flatMap (·.code)) (ofProgram (.ofInstructions (ks.flatMap (·.code)))) where
  settled := settled_flatMap fun k hk => (h k hk).choose_spec.rules
  wellPlaced segment index hmem := by
    obtain ⟨k, -, hmem⟩ := List.mem_flatMap.1 hmem
    exact wellPlaced_of_mem hmem
  program := rfl
  heap := Nat.le_refl _

theorem exists_runsCode {sources texts : List String} {m₀ : Machine}
    (hc : sources.mapM compileText = .ok texts) (hl : load (String.join texts) = .ok m₀)
    (hrunning : Running m₀ m) : ∃ ks : List Syntax.ClassDeclaration,
      (∀ k ∈ ks, ∃ source, k.Compiles source) ∧ RunsCode (ks.flatMap (·.code)) m := by
  obtain ⟨ks, hks, -, rfl⟩ := exists_classes_of_load hc hl
  have hcompiles : ∀ k ∈ ks, ∃ source, k.Compiles source := exists_compiles hks
  exact ⟨ks, hcompiles, (runsCode_ofProgram hcompiles).grown hrunning.grown⟩

/-! ## Code with calls -/

section Calls

variable {code stretch : List Instruction} {sp last done depth : Nat} {r : Option Word}

/-- The machine stands at instructions that calculate and call, all of which it can carry out. -/
structure Facing (code stretch : List Instruction) (sp last : Nat) (start : Machine) : Prop where
  runs : RunsCode code start
  stands : Placed start.program start.pc stretch
  calculates : ∀ i ∈ stretch, i.Calculates ∨ ∃ name count, i = .call name count
  settles : settle 0 stretch = some last
  sp_eq : start.word 0 = saturate sp
  low : 2 < sp
  high : sp ≤ 32767
  discreet : Discreet stretch.length start

/-- The machine is in the activation it began in, so far on, with so many words more on the stack. -/
structure Abreast (stretch : List Instruction) (sp : Nat) (start : Machine) (done depth : Nat)
    (m : Machine) : Prop where
  le : done ≤ stretch.length
  frames : m.frames = start.frames
  function : m.function = start.function
  pc : m.pc = start.pc + done
  settles : settle 0 (stretch.take done) = some depth
  sp_eq : m.word 0 = saturate (sp + depth)
  high : sp + depth ≤ 32767
  cells : ∀ a, stackBase ≤ a → a < sp → m.word a = start.word a

/-- The machine is in a call that was made on the way, above what lay on the stack there. -/
def Away (code stretch : List Instruction) (sp : Nat) (start m : Machine) : Prop :=
  ∃ caller name count done depth, Abreast stretch sp start done depth caller ∧
    stretch[done]? = some (.call name count) ∧ count ≤ depth ∧
    Within code caller (sp + (depth - count)) m

theorem Abreast.le_of_modest (h : Abreast stretch sp start done depth m) (hm : m.Modest) :
    sp + depth ≤ heapBase := by
  have hstack := hm.stack
  rw [h.sp_eq, toInt_saturate h.high] at hstack
  simp only [heapBase]
  omega

theorem Away.length_lt (h : Away code stretch sp start m) :
    start.frames.length < m.frames.length := by
  obtain ⟨caller, name, count, done, depth, hcaller, -, -, hwithin⟩ := h
  rw [← hcaller.frames]
  exact hwithin.length_lt

/-- The depth behind the next instruction. -/
theorem Abreast.exists_settle {i : Instruction} (h : Abreast stretch sp start done depth m)
    (hs : settle 0 stretch = some last) (hi : stretch[done]? = some i) :
    ∃ depth', i.settle depth = some depth' ∧
      settle 0 (stretch.take (done + 1)) = some depth' := by
  obtain ⟨depth₁, depth', hdepth, hsettle, hnext⟩ := exists_settle_of_getElem? hs hi
  obtain rfl := Option.some.inj (hdepth.symm.trans h.settles)
  exact ⟨depth', hsettle, hnext⟩

/-- What is carried out in place brings the machine one instruction on. -/
theorem Abreast.of_worksTo {depth' : Nat} (h : Abreast stretch sp start done depth m)
    (hlt : done < stretch.length) (hkept : Kept m.next m') (hw : WorksTo sp (sp + depth') m.next m')
    (hs : settle 0 (stretch.take (done + 1)) = some depth') :
    Abreast stretch sp start (done + 1) depth' m' where
  le := hlt
  frames := hkept.frames.trans h.frames
  function := hkept.function.trans h.function
  pc := by
    have hpc : m'.pc = m.pc + 1 := hkept.pc
    rw [hpc, h.pc, Nat.add_assoc]
  settles := hs
  sp_eq := hw.sp_eq
  high := hw.high
  cells a ha hlt := (hw.cells a ha hlt).trans (h.cells a ha hlt)

/-- So does a call that has come back. -/
theorem Abreast.of_resumed {name : String} {count : Nat}
    (h : Abreast stretch sp start done depth m) (hs : settle 0 stretch = some last)
    (hi : stretch[done]? = some (.call name count)) (hhigh : sp + (depth - count) < 32767)
    (hr : Resumed m (sp + (depth - count)) m') :
    Abreast stretch sp start (done + 1) (depth - count + 1) m' where
  le := (List.getElem?_eq_some_iff.1 hi).1
  frames := hr.frames.trans h.frames
  function := hr.function.trans h.function
  pc := by rw [hr.pc, h.pc, Nat.add_assoc]
  settles := by
    obtain ⟨depth', hsettle, hnext⟩ := h.exists_settle hs hi
    obtain ⟨-, rfl⟩ : count ≤ depth ∧ depth - count + 1 = depth' := by
      simpa [Instruction.settle] using hsettle
    exact hnext
  sp_eq := hr.sp_eq
  high := hhigh
  cells a ha hlt := (hr.cells a ha (by omega)).trans (h.cells a ha hlt)

namespace Facing

variable (hface : Facing code stretch sp last start)

include hface

/-- A step of the activation goes one instruction on, or into a call. -/
theorem step_abreast {i : Instruction} (h : Abreast stretch sp start done depth m)
    (hruns : RunsCode code m) (hm : m.Modest) (hstretch : stretch[done]? = some i)
    (hi : m.instruction? = some i) (hstep : step.run m = .ok r m') :
    (∃ done depth, Abreast stretch sp start done depth m') ∨ Away code stretch sp start m' := by
  have hhigh := h.le_of_modest hm
  have hnext : m.next.word 0 = saturate (sp + depth) := h.sp_eq
  have hlt := (List.getElem?_eq_some_iff.1 hstretch).1
  obtain ⟨depth', hsettle, hdepth'⟩ := h.exists_settle hface.settles hstretch
  rcases hface.calculates i (List.mem_of_getElem? hstretch) with hcalculates | ⟨name, count, rfl⟩
  · rw [run_step hi] at hstep
    have hkept := (contained_perform (straight_of_calculates hcalculates)).kept hstep
    have hw := worksTo_of_calculates hcalculates hface.low (Nat.le_refl sp) hnext hhigh hsettle hstep
    exact .inl ⟨_, _, h.of_worksTo hlt hkept hw hdepth'⟩
  · obtain ⟨hcount, rfl⟩ : count ≤ depth ∧ depth - count + 1 = depth' := by
      simpa [Instruction.settle] using hsettle
    obtain ⟨left, rfl⟩ := Nat.exists_eq_add_of_le' hcount
    rw [Nat.add_sub_cancel] at hdepth'
    cases hb : builtin? name count with
    | some routine =>
      rw [run_step hi] at hstep
      have hkept := (contained_perform_call hb).kept hstep
      have happend : routine = .stringAppendChar → 2048 ≤ (m.word (sp + left)).toInt := by
        rintro rfl
        obtain ⟨-, harity⟩ := Option.filter_eq_some_iff.1 hb
        obtain rfl : 2 = count := of_decide_eq_true harity
        have hstring := le_of_appendChar hi hb h.sp_eq h.high hm.stores
        rwa [show sp + (left + 2) - 2 = sp + left by omega] at hstring
      have hsp : m.next.word 0 = saturate (sp + left + count) := by rw [hnext, Nat.add_assoc]
      have hw := worksTo_of_routine hface.low (Nat.le_add_right sp left) hsp
        (by rwa [Nat.add_assoc]) hb (fun _ => hruns.heap) happend hstep
      exact .inl ⟨_, _, h.of_worksTo hlt hkept hw hdepth'⟩
    | none =>
      have hwithin := (within_of_call hruns.settled hruns.program hruns.heap hi hb h.sp_eq
        (by omega) h.high hstep).2
      refine .inr ⟨m, name, count, done, left + count, h, hstretch, hcount, ?_⟩
      rwa [Nat.add_sub_cancel, show sp + left = sp + (left + count) - count by omega]

/-- A step of a call goes on with it, or back from it. -/
theorem step_away (h : Away code stretch sp start m) (hm : m.Modest)
    (hstep : step.run m = .ok r m') :
    (∃ done depth, Abreast stretch sp start done depth m') ∨ Away code stretch sp start m' := by
  obtain ⟨caller, name, count, done, depth, hcaller, hi, hcount, inner, sp', lcl, arg, depth',
    hlevel⟩ := h
  have hhigh := hlevel.le_of_modest hm
  obtain ⟨-, hwithin | hresumed⟩ := hlevel.step_within hface.runs.settled
    (Nat.lt_of_lt_of_le hface.low (Nat.le_add_right ..)) hhigh hface.runs.wellPlaced hm.stores hstep
  · exact .inr ⟨caller, name, count, done, depth, hcaller, hi, hcount, hwithin⟩
  · have := hlevel.nested.le
    have := hlevel.arg_le
    have := hlevel.le
    simp only [heapBase] at hhigh
    exact .inl ⟨_, _, hcaller.of_resumed hface.settles hi (by omega) hresumed⟩

theorem abreast_or_away (h : Underway stretch.length start m) :
    (∃ done depth, Abreast stretch sp start done depth m) ∨ Away code stretch sp start m := by
  induction h with
  | start => exact .inl ⟨0, 0, Nat.zero_le _, rfl, rfl, rfl, rfl, hface.sp_eq, hface.high,
      fun _ _ _ => rfl⟩
  | @step m m' h hin hstep ih =>
    have hm := hface.discreet m h hin
    rcases ih with ⟨done, depth, hm'⟩ | haway
    · have hlt := hin (congrArg List.length hm'.frames)
      rw [hm'.pc, Nat.add_lt_add_iff_left] at hlt
      have hstretch := List.getElem?_eq_getElem hlt
      refine hface.step_abreast hm' (hface.runs.grown h.grown) hm hstretch ?_ hstep
      rw [instruction?, hm'.pc, h.grown.program]
      exact hface.stands.getElem? hstretch
    · exact hface.step_away haway hm hstep

theorem pc_le (h : Underway stretch.length start m) (hframes : m.frames.length = start.frames.length) :
    m.pc ≤ start.pc + stretch.length := by
  rcases hface.abreast_or_away h with ⟨done, depth, hm⟩ | haway
  · rw [hm.pc]
    exact Nat.add_le_add_left hm.le _
  · have := haway.length_lt
    omega

/-- Behind the instructions the machine is in its own activation again, and what lay on the stack is
still there. -/
theorem abreast (h : Through stretch.length start m) :
    Abreast stretch sp start stretch.length last m := by
  rcases hface.abreast_or_away h.underway with ⟨done, depth, hm⟩ | haway
  · obtain rfl : done = stretch.length := Nat.add_left_cancel (hm.pc.symm.trans h.pc)
    have hsettles := hm.settles
    rw [List.take_length, hface.settles] at hsettles
    obtain rfl := Option.some.inj hsettles
    exact hm
  · have := haway.length_lt
    have := h.frames
    omega

/-- On the way to what follows the instructions the machine comes to their end. -/
theorem split (h : Through (stretch.length + k) start m') :
    ∃ m, Through stretch.length start m ∧ Abreast stretch sp start stretch.length last m ∧
      Through k m m' := by
  obtain ⟨m, hm, hm'⟩ := h.split fun m hu hframes => hface.pc_le hu hframes
  exact ⟨m, hm, hface.abreast hm, hm'⟩

end Facing

end Calls

end Jack.Machine

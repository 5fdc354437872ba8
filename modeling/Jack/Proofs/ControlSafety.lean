import Jack.Proofs.Requests
import Jack.Proofs.Shelter
import Jack.Proofs.Sizes
import Jack.Proofs.SubroutineRun

/-!
# Safety of the control

In classes whose bodies all end in a `return`, nothing but a call and a return leads out of a
definition (`Definition.Closed`). So a running machine is always in the last definition of its current
function, and so is every place that it will return to (`Steady`). What can go wrong with the control
is then a call of a function that is not there (`control_safe`).
-/

namespace Jack.Machine

open Syntax

variable {ds : List Definition} {m m' : Machine} {name : String} {pc : Nat} {i : Instruction}

/-! ## Closed definitions -/

/-- Nothing leads out of the definition but calls and returns. -/
structure Definition.Closed (d : Definition) : Prop where
  whole : d.Whole
  targets : ∀ name ∈ targetsOf d.body, name ∈ labelsOf d.body
  ends : d.body.getLast? = some (.command .ret)
  pops : ∀ index, Instruction.pop .constant index ∉ d.body

theorem getLast?_of_endsInReturn {b : Bindings} {body : Block} {i w : Nat} (h : body.EndsInReturn) :
    (body.code b i w).getLast? = some (.command .ret) := by
  fun_induction Block.EndsInReturn body generalizing i w with
  | case1 => exact h.elim
  | case2 value => cases value <;> simp [Block.code, Statement.code]
  | case3 first rest _ ih =>
    rw [Block.code, List.getLast?_append, ih h]
    rfl

theorem closed_definition {k : ClassDeclaration} {d : SubroutineDeclaration} {i w : Nat}
    (hends : d.body.EndsInReturn) (hd : d.definition k i w ∈ k.definitions) :
    (d.definition k i w).Closed where
  whole := d.whole k i w
  targets _ hname := (d.labelled k i w).perm.mem_iff.1 hname
  ends := by
    have hlast := @getLast?_of_endsInReturn (bindings k d) _ i w hends
    rw [SubroutineDeclaration.definition, List.getLast?_append, hlast]
    rfl
  pops index hmem := by
    have hcode : Instruction.pop .constant index ∈ k.code := by
      rw [← k.codeOf_definitions]
      exact List.mem_flatMap.2 ⟨_, hd, List.mem_cons_of_mem _ hmem⟩
    exact wellPlaced_of_mem hcode

/-! ## The last definition of a name -/

/-- The address is in the last definition of the name. -/
def InLast (ds : List Definition) (name : String) (pc : Nat) : Prop :=
  ∃ before d after, ds = before ++ d :: after ∧ d.name = name ∧ (∀ d' ∈ after, d'.name ≠ name) ∧
    ∃ i ≤ d.body.length, pc = (codeOf before).length + i

theorem getElem?_definition {before after : List Definition} {d : Definition} {i : Nat}
    (h : i ≤ d.body.length) :
    (codeOf (before ++ d :: after))[(codeOf before).length + i]? = d.code[i]? := by
  rw [codeOf_append, codeOf_cons, List.getElem?_append_right (Nat.le_add_right _ _),
    Nat.add_sub_cancel_left, List.getElem?_append_left (by rw [Definition.length_code]; omega)]

section Closed

variable (hds : ∀ d ∈ ds, d.Closed)

include hds

theorem inLast_of_functions
    (h : (Program.ofInstructions (codeOf ds)).functions[name]? = some pc) : InLast ds name pc := by
  obtain ⟨before, d, after, hsplit, hname, hpc, hlast⟩ :=
    Program.exists_last_of_functions (fun d hd => (hds d hd).whole) h
  exact ⟨before, d, after, hsplit, hname, hlast, 0, Nat.zero_le _, hpc⟩

/-- The code goes on behind everything but a return. -/
theorem InLast.next (h : InLast ds name pc) (hi : (codeOf ds)[pc]? = some i)
    (hret : i ≠ .command .ret) : InLast ds name (pc + 1) := by
  obtain ⟨before, d, after, rfl, hname, hlast, j, hj, rfl⟩ := h
  rw [getElem?_definition hj] at hi
  refine ⟨before, d, after, rfl, hname, hlast, j + 1, ?_, rfl⟩
  by_contra hend
  obtain rfl : j = d.body.length := by omega
  have hbody := (hds d (by simp)).ends
  rw [List.getLast?_eq_getElem?] at hbody
  have hne : d.body.length ≠ 0 := by
    intro hzero
    simp [hzero] at hbody
  obtain ⟨n, hn⟩ := Nat.exists_eq_succ_of_ne_zero hne
  rw [hn, Definition.code, List.getElem?_cons_succ] at hi
  rw [hn, Nat.succ_sub_one, hi, Option.some.injEq] at hbody
  exact hret hbody

/-- A jump leads to a label of the definition. -/
theorem InLast.jump {label : String} (h : InLast ds name pc) (hi : (codeOf ds)[pc]? = some i)
    (ht : i.target? = some label) :
    ∃ pc', (Program.ofInstructions (codeOf ds)).labels[(name, label)]? = some pc' ∧
      InLast ds name pc' := by
  obtain ⟨before, d, after, rfl, rfl, hlast, j, hj, rfl⟩ := h
  rw [getElem?_definition hj] at hi
  have hmem : i ∈ d.body := by
    cases List.mem_of_getElem? hi with
    | head => simp [Instruction.target?] at ht
    | tail _ hmem => exact hmem
  have htarget : label ∈ labelsOf d.body :=
    (hds d (by simp)).targets label (List.mem_filterMap.2 ⟨i, hmem, ht⟩)
  obtain ⟨i', hi', hlabel⟩ := List.mem_filterMap.1 htarget
  obtain ⟨n, hn⟩ := List.mem_iff_getElem?.1 hi'
  obtain rfl : i' = .label label := by
    cases i' <;> simp [Instruction.label?] at hlabel
    rw [hlabel]
  obtain ⟨n', -, hn', hlabels⟩ :=
    Program.exists_label_of_last (fun d hd => (hds d hd).whole) hlast hn
  have hlt := (List.getElem?_eq_some_iff.1 hn').1
  exact ⟨_, hlabels, before, d, after, rfl, rfl, hlast, n' + 1, hlt, by omega⟩

end Closed

/-! ## Steady machines -/

/-- Every caller up to the outside is to go on in the last definition of its function. -/
def Returning (ds : List Definition) : List Frame → Prop
  | [] => False
  | frame :: frames => ∀ pc ∈ frame.returnAddress, InLast ds frame.function pc ∧ Returning ds frames

/-- The machine is in the last definition of its function, and so it will be after every return. -/
structure Steady (ds : List Definition) (m : Machine) : Prop where
  program : m.program = .ofInstructions (codeOf ds)
  here : InLast ds m.function m.pc
  returning : Returning ds m.frames

theorem Steady.getElem? (h : Steady ds m) (hi : m.instruction? = some i) :
    (codeOf ds)[m.pc]? = some i := by
  rwa [instruction?_of_program h.program] at hi

theorem Steady.exists_instruction (h : Steady ds m) :
    ∃ d ∈ ds, ∃ i ∈ d.code, m.instruction? = some i := by
  obtain ⟨before, d, after, hsplit, -, -, j, hj, hpc⟩ := h.here
  have hlt : j < d.code.length := by rw [Definition.length_code]; omega
  refine ⟨d, by simp [hsplit], d.code[j], List.getElem_mem hlt, ?_⟩
  rw [instruction?_of_program h.program, hpc, hsplit, getElem?_definition hj,
    List.getElem?_eq_getElem hlt]

/-- The call from outside is steady, whatever earlier runs have left behind. -/
theorem steady_of_enterFunction (hds : ∀ d ∈ ds, d.Closed)
    (hprogram : m.program = .ofInstructions (codeOf ds))
    (h : (enterFunction name 0 none).run m = .ok () m') : Steady ds m' := by
  cases hf : m.program.functions[name]? with
  | none => simp [run_enterFunction_of_none 0 none hf] at h
  | some entry =>
    rw [run_enterFunction 0 none hf] at h
    cases h
    refine ⟨hprogram, inLast_of_functions hds (hprogram ▸ hf), ?_⟩
    intro pc hpc
    simp [frame] at hpc

/-- A step keeps the machine steady. -/
theorem Steady.step (hds : ∀ d ∈ ds, d.Closed) (h : Steady ds m)
    (hstep : Machine.step.run m = .ok none m') : Steady ds m' := by
  have hmoves := moves_step m
  rw [hstep] at hmoves
  generalize hr : EStateM.Result.ok (none : Option Word) m' = result at hmoves
  cases hmoves with
  | on hi hret hkept =>
    cases hr
    refine ⟨hkept.program.trans h.program, ?_, ?_⟩
    · rw [hkept.function, hkept.pc]
      exact h.here.next hds (h.getElem? hi) hret
    · rw [hkept.frames]
      exact h.returning
  | jump hi ht hl hkept =>
    cases hr
    obtain ⟨pc', hl', hin⟩ := h.here.jump hds (h.getElem? hi) ht
    rw [h.program, hl', Option.some.injEq] at hl
    subst hl
    refine ⟨hkept.program.trans h.program, ?_, ?_⟩
    · rw [hkept.function, hkept.pc]
      exact hin
    · rw [hkept.frames]
      exact h.returning
  | @enter callee count entry hi hb hf =>
    cases hr
    rw [h.program] at hf
    refine ⟨h.program, inLast_of_functions hds hf, ?_⟩
    intro pc hpc
    obtain rfl : m.pc + 1 = pc := Option.some.inj hpc
    exact ⟨h.here.next hds (h.getElem? hi) (by simp), h.returning⟩
  | @leave frame frames value m₁ hi hframes hframes' hfunction hpc hgrown =>
    simp only [EStateM.Result.ok.injEq] at hr
    obtain ⟨hsome, rfl⟩ := hr
    cases hret : frame.returnAddress with
    | none => simp [hret] at hsome
    | some pc =>
      have hreturning := h.returning
      rw [hframes] at hreturning
      obtain ⟨hin, hrest⟩ := hreturning pc hret
      refine ⟨hgrown.program.trans h.program, ?_, hframes' ▸ hrest⟩
      rw [hfunction, hpc pc hret]
      exact hin
  | fault | unknownLabel | unknownFunction | noCaller | popConstant | ended => cases hr

/-- The one fault of the control is a call of a function that is not defined. -/
theorem Steady.fault {f : Fault} (hds : ∀ d ∈ ds, d.Closed) (h : Steady ds m)
    (hstep : Machine.step.run m = .error f m') : f.OfData ∨ ∃ name count, f = .unknownFunction name ∧
      m.instruction? = some (.call name count) ∧ builtin? name count = none ∧
        ∀ d ∈ ds, d.name ≠ name := by
  have hmoves := moves_step m
  rw [hstep] at hmoves
  generalize hr : EStateM.Result.error f m' = result at hmoves
  cases hmoves with
  | on | jump | enter | leave => cases hr
  | fault hf hgrown =>
    cases hr
    exact .inl hf
  | unknownLabel hi ht hl hgrown =>
    obtain ⟨pc', hl', -⟩ := h.here.jump hds (h.getElem? hi) ht
    rw [h.program, hl'] at hl
    simp at hl
  | @unknownFunction callee count hi hb hf =>
    cases hr
    refine .inr ⟨callee, count, rfl, hi, hb, fun d hd hname => ?_⟩
    obtain ⟨before, after, rfl⟩ := List.append_of_mem hd
    rw [h.program, Program.functions_eq_none] at hf
    exact hf _ (by rw [← hname]; exact ⟨_, Program.getElem?_entry⟩)
  | noCaller hi hframes hgrown =>
    have hreturning := h.returning
    rw [hframes] at hreturning
    exact hreturning.elim
  | @popConstant index f m₁ hi hgrown =>
    obtain ⟨d, hd, i, hmem, hi'⟩ := h.exists_instruction
    rw [hi, Option.some.injEq] at hi'
    subst hi'
    cases hmem with
    | tail _ hmem => exact ((hds d hd).pops index hmem).elim
  | ended hi =>
    obtain ⟨d, hd, i, hmem, hi'⟩ := h.exists_instruction
    simp [hi] at hi'

theorem Running.steady {m₀ : Machine} (hds : ∀ d ∈ ds, d.Closed)
    (hprogram : m₀.program = .ofInstructions (codeOf ds)) (h : Running m₀ m) : Steady ds m := by
  induction h with
  | enter h henter => exact steady_of_enterFunction hds (h.grown.program.trans hprogram) henter
  | step _ hstep ih => exact ih.step hds hstep

/-! ## Programs of classes -/

/-- The address is in the code of the last function of the name: no other function begins in its
body, and none of the name behind it. -/
def StandsIn (code : List Instruction) (name : String) (pc : Nat) : Prop :=
  ∃ before n body after, code = before ++ .function name n :: body ++ after ∧
    (∀ name' n', Instruction.function name' n' ∉ body) ∧
      (∀ n', Instruction.function name n' ∉ after) ∧
        before.length ≤ pc ∧ pc ≤ before.length + body.length

theorem InLast.standsIn (hds : ∀ d ∈ ds, d.Closed) (h : InLast ds name pc) :
    StandsIn (codeOf ds) name pc := by
  obtain ⟨before, d, after, rfl, rfl, hlast, j, hj, rfl⟩ := h
  refine ⟨codeOf before, d.localCount, d.body, codeOf after, ?_, (hds d (by simp)).whole, ?_,
    by omega, by omega⟩
  · rw [codeOf_append, codeOf_cons, Definition.code]
    simp
  · intro n hmem
    obtain ⟨d', hd', hmem⟩ := List.mem_flatMap.1 hmem
    rcases List.mem_cons.1 hmem with heq | hmem
    · exact hlast d' hd' (Instruction.function.inj heq).1.symm
    · exact (hds d' (by simp [hd'])).whole _ _ hmem

/-- None of the classes has the function. -/
def Undefined (ks : List ClassDeclaration) (name : String) : Prop :=
  ∀ k ∈ ks, ∀ d ∈ k.subroutines, k.name ++ "." ++ d.name ≠ name

section Classes

variable {ks : List ClassDeclaration}

theorem codeOf_flatMap_definitions (ks : List ClassDeclaration) :
    codeOf (ks.flatMap (·.definitions)) = ks.flatMap (·.code) := by
  simp only [codeOf, List.flatMap_assoc]
  exact List.flatMap_congr fun k _ => k.codeOf_definitions

theorem closed_of_mem (hends : ∀ k ∈ ks, ∀ d ∈ k.subroutines, d.body.EndsInReturn) :
    ∀ d ∈ ks.flatMap (·.definitions), d.Closed := by
  intro d hd
  obtain ⟨k, hk, hd⟩ := List.mem_flatMap.1 hd
  obtain ⟨d', hd', i, w, rfl⟩ := exists_subroutine_of_mem hd
  exact closed_definition (hends k hk d' hd') hd

theorem undefined_iff :
    Undefined ks name ↔ ∀ d ∈ ks.flatMap (·.definitions), d.name ≠ name := by
  have hnames : (ks.flatMap (·.definitions)).map (·.name) =
      ks.flatMap fun k => k.subroutines.map fun d => k.name ++ "." ++ d.name := by
    rw [List.map_flatMap]
    exact List.flatMap_congr fun k _ => names_definitionsFrom k.subroutines 0 0
  have hmem : name ∈ (ks.flatMap (·.definitions)).map (·.name) ↔
      ∃ k ∈ ks, ∃ d ∈ k.subroutines, k.name ++ "." ++ d.name = name := by
    simp only [hnames, List.mem_flatMap, List.mem_map]
  rw [List.mem_map] at hmem
  unfold Undefined
  constructor
  · intro h d hd hname
    obtain ⟨k, hk, d', hd', hname'⟩ := hmem.1 ⟨d, hd, hname⟩
    exact h k hk d' hd' hname'
  · intro h k hk d hd hname
    obtain ⟨d', hd', hname'⟩ := hmem.2 ⟨k, hk, d, hd, hname⟩
    exact h d' hd' hname'

end Classes

/-- Classes whose bodies all end in a `return` do not go wrong in their control, whatever is asked
of the machine: what they compile to is loaded, if their texts are no longer than a signed word can
count; the machine stays in the last function of the name that it is in; labels are found and
nothing is stored to a constant; and a function is missing only where it is called or asked for and
no class has it. -/
theorem control_safe {sources texts : List String} {ks : List ClassDeclaration}
    (hc : sources.mapM compileText = .ok texts)
    (hks : List.Forall₂ (fun source k => k.Compiles (.ofString source)) sources ks)
    (hends : ∀ k ∈ ks, ∀ d ∈ k.subroutines, d.body.EndsInReturn) :
    ((∀ source ∈ sources, 2 * Text.byteSize source.toList < UInt64.size) →
      ∃ m₀, load (String.join texts) = .ok m₀) ∧
    ∀ m₀, load (String.join texts) = .ok m₀ →
      (∀ m, Running m₀ m → StandsIn (ks.flatMap (·.code)) m.function m.pc) ∧
      (∀ m f m', Running m₀ m → step.run m = .error f m' →
        (∀ label function, f ≠ .unknownLabel label function) ∧ f ≠ .popConstant ∧
          ∀ name, f = .unknownFunction name → Undefined ks name ∧
            ∃ count, m.instruction? = some (.call name count) ∧ builtin? name count = none) ∧
      ∀ m entry f m', Served m₀ m → (run entry).run m = .error f m' →
        (∀ label function, f ≠ .unknownLabel label function) ∧ f ≠ .popConstant ∧
          ∀ name, f = .unknownFunction name → Undefined ks name ∧ (name = entry ∨
            ∃ m₁ count, Running m₀ m₁ ∧ m₁.instruction? = some (.call name count) ∧
              builtin? name count = none) := by
  have hds := closed_of_mem hends
  have hcode := codeOf_flatMap_definitions ks
  obtain rfl : ks.map (fun k => Instruction.listing k.code) = texts :=
    Except.ok.inj ((mapM_compileText hks).symm.trans hc)
  rw [join_listing]
  refine ⟨fun hsize => ⟨_, exists_load hks hsize⟩, fun m₀ hl => ?_⟩
  have hcompiled : ∀ k ∈ ks, ∃ source, k.Compiles source := by
    intro k hk
    obtain ⟨i, hi, rfl⟩ := List.getElem_of_mem hk
    exact ⟨_, hks.get (by rwa [hks.length_eq]) hi⟩
  obtain ⟨-, rfl⟩ := (load_classes hcompiled).1 hl
  have hsteady : ∀ m, Running (ofProgram (.ofInstructions (ks.flatMap (·.code)))) m →
      Steady (ks.flatMap (·.definitions)) m :=
    fun m h => h.steady hds (by rw [hcode]; rfl)
  have hstep : ∀ m f m', Running (ofProgram (.ofInstructions (ks.flatMap (·.code)))) m →
      step.run m = .error f m' →
      (∀ label function, f ≠ .unknownLabel label function) ∧ f ≠ .popConstant ∧
        ∀ name, f = .unknownFunction name → Undefined ks name ∧
          ∃ count, m.instruction? = some (.call name count) ∧ builtin? name count = none := by
    intro m f m' hm hrun
    obtain hf | ⟨name, count, rfl, hi, hb, hname⟩ := (hsteady m hm).fault hds hrun
    · cases f <;> simp [Fault.OfData] at hf ⊢
    · refine ⟨by simp, by simp, ?_⟩
      rintro name' ⟨⟩
      exact ⟨undefined_iff.2 hname, count, hi, hb⟩
  refine ⟨fun m hm => ?_, hstep, fun m entry f m' hm hrun => ?_⟩
  · rw [← hcode]
    exact (hsteady m hm).here.standsIn hds
  · obtain ⟨hnone, rfl⟩ | rfl | ⟨m₁, hm₁, hrun₁⟩ := exists_running_of_run hm hrun
    · refine ⟨by simp, by simp, ?_⟩
      rintro name ⟨⟩
      rw [hm.grown.program, ← hcode] at hnone
      refine ⟨undefined_iff.2 fun d hd hname => ?_, .inl rfl⟩
      obtain ⟨before, after, hsplit⟩ := List.append_of_mem hd
      refine Program.functions_eq_none.1 hnone (codeOf before).length ?_
      rw [hsplit, ← hname]
      exact ⟨_, Program.getElem?_entry⟩
    · simp
    · obtain ⟨hlabel, hpop, hfunction⟩ := hstep m₁ f m' hm₁ hrun₁
      refine ⟨hlabel, hpop, fun name hname => ?_⟩
      obtain ⟨hundefined, count, hi, hb⟩ := hfunction name hname
      exact ⟨hundefined, .inr ⟨m₁, count, hm₁, hi, hb⟩⟩

/-- A class with a loop, branches and calls is safe. -/
theorem control_safe_row : ∃ m₀, load (String.join [Instruction.listing rowClass.code]) = .ok m₀ ∧
    (∀ m, Running m₀ m → StandsIn ([rowClass].flatMap (·.code)) m.function m.pc) ∧
    ∀ m f m', Running m₀ m → step.run m = .error f m' →
      ∀ label function, f ≠ .unknownLabel label function := by
  have hc : [rowSource].mapM compileText = .ok [Instruction.listing rowClass.code] :=
    mapM_compileText (.cons rowClass_compiles .nil)
  have hsize : 2 * Text.byteSize rowSource.toList < UInt64.size := by
    rw [rowSource, String.toList_join]
    decide +kernel
  have hsafe := control_safe hc (.cons rowClass_compiles .nil)
    (by simp [rowClass, fillSubroutine, growSubroutine, Block.EndsInReturn])
  obtain ⟨m₀, hl⟩ := hsafe.1 (by simpa only [List.forall_mem_singleton] using hsize)
  obtain ⟨hstands, hfaults, -⟩ := hsafe.2 m₀ hl
  exact ⟨m₀, hl, hstands, fun m f m' hm hf => (hfaults m f m' hm hf).1⟩

end Jack.Machine

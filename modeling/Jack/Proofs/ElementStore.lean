import Jack.Proofs.Memory
import Jack.Proofs.Stretches

/-!
# Storing elements

An assignment to an element finds the address first and evaluates the value then. The address waits on
the stack, and whatever the evaluation calls and stores, it is there that the value goes
(`stores_of_through`).
-/

namespace Jack

open Machine Syntax Compiler

namespace Machine

variable {b : Bindings} {array : String} {index value : Expression} {sp : Nat} {m m' : Machine}

/-- The address of the element has been found: the array is read, the index evaluated, and the sum of
both lies on top of the stack. -/
structure Locates (b : Bindings) (array : String) (index : Expression) (sp : Nat)
    (m m₁ m₂ m₃ : Machine) : Prop where
  reading : Through (b.read array).length m m₁
  base : ∃ s, b.resolve array = some s ∧
    (readElement s.kind.segment s.index).run m.next = .ok (m₁.word sp) m.next
  indexing : Through (index.code b).length m₁ m₂
  offset : m₂.word 0 = saturate (sp + 2)
  adding : Through 1 m₂ m₃
  address : m₃.word sp = m₁.word sp + m₂.word (sp + 1)
  stack : m₃.word 0 = saturate (sp + 1)

/-- The value on top of the stack has been stored at the address below it, and nothing else has
changed on the way but the registers and the stack. -/
structure StoresElement (address : Word) (sp : Nat) (m m' : Machine) : Prop where
  last : ∃ m₃, Walk 3 m m₃ ∧ m₃.instruction? = some (.pop .that 0) ∧
    m₃.storeAddress? = some address.toInt ∧ step.run m₃ = .ok none m'
  high : (heapBase : Int) ≤ address.toInt
  word : m'.word address.toInt.toNat = m.word (sp + 1)
  others : ∀ k ≤ 4, ∀ x, Walk k m x → ∀ a : Nat, (a : Int) ≠ address.toInt → a ∉ [0, 4, 5] →
    a < sp ∨ heapBase ≤ a → x.word a = m.word a
  stack : m'.word 0 = saturate sp

/-- The value goes where the address says. -/
theorem storesElement_of_walk (hh : Height m (sp + 2)) (hlow : 5 < sp)
    (hcode : Placed m.program m.pc storeElement) (hw : Walk 4 m m')
    (hstores : ∀ m₃, Walk 3 m m₃ → ∀ a ∈ m₃.storeAddress?, 2048 ≤ a) :
    StoresElement (m.word sp) sp m m' := by
  have hhigh := hh.high
  obtain ⟨m₁, m₂, m₃, hw₁, hm₁, hw₂, hm₂, hw₃, hi, haimed⟩ := exists_aimed hh hlow hcode
  have hthree := (hw₁.trans hw₂).trans hw₃
  have hstore : m₃.storeAddress? = some (m.word sp).toInt := by
    rw [storeAddress?, hi, haimed.that]
    simp
  have hheap : 2048 ≤ (m.word sp).toInt := hstores m₃ hthree _ hstore
  obtain ⟨address, hle, haddress⟩ := exists_saturate (show 0 ≤ m.word sp by
    rw [Int16.le_iff_toInt_le]
    exact Int.le_trans (by decide) hheap)
  rw [haddress, toInt_saturate hle] at hheap
  obtain ⟨m₄, hw₄, hm₄⟩ := walk_pop_of_base haimed.height (by omega) hi rfl
    (haimed.that.trans haddress) (by omega)
  obtain rfl := hw.unique (hthree.trans hw₄)
  have hword := hm₄.word
  rw [Nat.add_zero, haimed.top] at hword
  refine ⟨⟨m₃, hthree, hi, hstore, ?_⟩, ?_, ?_, ?_, ?_⟩
  · cases hw₄ with
    | step _ hstep hrefl =>
      cases hrefl
      exact hstep
  · rw [haddress, toInt_saturate hle]
    simp only [heapBase]
    omega
  · rw [haddress, toInt_saturate hle, Int.toNat_natCast, hword, if_pos rfl]
  · intro k hk x hx a hne hregisters ha
    rw [haddress, toInt_saturate hle] at hne
    simp only [List.mem_cons, List.not_mem_nil, or_false, not_or] at hregisters
    obtain ⟨h0, h4, h5⟩ := hregisters
    simp only [heapBase] at ha
    have hword₁ : m₁.word a = m.word a := by rw [hm₁.word, if_neg h5, if_neg h0]
    have hword₂ : m₂.word a = m.word a := by rw [hm₂.word, if_neg h4, if_neg h0, hword₁]
    have hword₃ : m₃.word a = m.word a := haimed.others a h0 h4 h5 (by omega)
    obtain rfl | rfl | rfl | rfl | rfl : k = 0 ∨ k = 1 ∨ k = 2 ∨ k = 3 ∨ k = 4 := by omega
    · cases hx
      rfl
    · rw [hx.unique hw₁, hword₁]
    · rw [hx.unique (hw₁.trans hw₂), hword₂]
    · rw [hx.unique hthree, hword₃]
    · rw [hx.unique hw, hword, if_neg (by omega), if_neg h0, hword₃]
  · rw [hword, if_neg (by omega), if_pos rfl]

/-! ## The whole assignment -/

section Assignment

variable {code rest : List Instruction} {k : Nat}

theorem calculates_code (e : Expression) :
    ∀ i ∈ e.code b, i.Calculates ∨ ∃ name count, i = .call name count :=
  fun i hi => (e.computes (.refl _) i hi).calculates

theorem straight_storeElement : ∀ i ∈ storeElement, Straight i := by
  simp [storeElement, Straight]

/-- On the way to the end of an assignment the address is found. -/
theorem exists_locates (hruns : RunsCode code m) (harray : b.Declares array)
    (hindex : ∀ name ∈ index.mentions, b.Declares name)
    (hstands : Placed m.program m.pc (b.read array ++ (index.code b ++ ([.command .add] ++ rest))))
    (hsp : m.word 0 = saturate sp) (hlow : stackBase ≤ sp) (hhigh : sp ≤ heapBase)
    (hdiscreet : Discreet ((b.read array).length + ((index.code b).length + (1 + k))) m)
    (h : Through ((b.read array).length + ((index.code b).length + (1 + k))) m m') :
    ∃ m₁ m₂ m₃, Locates b array index sp m m₁ m₂ m₃ ∧ RunsCode code m₃ ∧
      Placed m₃.program m₃.pc rest ∧ Discreet k m₃ ∧ Through k m₃ m' := by
  simp only [stackBase, heapBase] at hlow hhigh
  -- the array is read
  obtain ⟨s, hs⟩ := Option.isSome_iff_exists.1 harray
  have hread : b.read array = [s.push] := by simp [Bindings.read, hs]
  obtain ⟨m₁, hm₁, hw₁, h⟩ := h.split_walk (placed_append.1 hstands).1
    (by simp [hread, Symbol.push, Straight])
  have hstands₁ := hm₁.placed hstands
  have hdiscreet₁ := hdiscreet.tail hm₁
  rw [hread] at hstands hw₁
  obtain ⟨base, hbase, hpushed⟩ := of_walk_push hsp hhigh hstands.1 hw₁
  have hword₁ : ∀ a, m₁.word a = if a = 0 then saturate (sp + 1) else if a = sp then base
      else m.word a := fun a => hpushed ▸ word_pushed a base (by omega)
  -- the index is evaluated above it
  have hface₁ : Facing code (index.code b) (sp + 1) 1 m₁ :=
    { runs := hruns.grown hm₁.underway.grown
      stands := (placed_append.1 hstands₁).1
      calculates := calculates_code index
      settles := index.settle_code hindex 0
      sp_eq := hword₁ 0
      low := by omega
      high := by omega
      discreet := hdiscreet₁.head }
  obtain ⟨m₂, hm₂, habreast₂, h⟩ := hface₁.split h
  have hstands₂ := hm₂.placed hstands₁
  -- both are added
  obtain ⟨m₃, hm₃, hw₃, h⟩ := Through.split_walk (placed_append.1 hstands₂).1 (by simp [Straight]) h
  obtain ⟨m₃', hw₃', hsum⟩ := exists_walk_add habreast₂.sp_eq (by omega) hhigh hstands₂.1
  obtain rfl := hw₃.unique hw₃'
  have hword₃ : ∀ a, m₃.word a = if a = 0 then saturate (sp + 1) else if a = sp then
      m₂.word sp + m₂.word (sp + 1) else m₂.word a := fun a => hsum ▸ word_pushed a _ (by omega)
  have hbase₁ : m₁.word sp = base := by rw [hword₁, if_neg (by omega), if_pos rfl]
  have hbase₂ : m₂.word sp = m₁.word sp := habreast₂.cells sp hlow (Nat.lt_succ_self sp)
  refine ⟨m₁, m₂, m₃, ⟨hm₁, ⟨s, hs, by rw [hbase₁]; exact hbase⟩, hm₂, habreast₂.sp_eq, hm₃, ?_, ?_⟩,
    (hface₁.runs.grown hm₂.underway.grown).grown hm₃.underway.grown, hm₃.placed hstands₂,
    (hdiscreet₁.tail hm₂).tail hm₃, h⟩
  · rw [hword₃, if_neg (by omega), if_pos rfl, hbase₂]
  · rw [hword₃, if_pos rfl]

/-- An assignment to an element stores what the value has left on the stack at the address that was
found before the value was evaluated. -/
theorem stores_of_through {sources texts : List String} {m₀ : Machine} {i w : Nat}
    (hc : sources.mapM compileText = .ok texts) (hl : load (String.join texts) = .ok m₀)
    (hrunning : Running m₀ m)
    (hdeclares : ∀ name ∈ (Statement.assignElement array index value).mentions, b.Declares name)
    (hstands : Placed m.program m.pc ((Statement.assignElement array index value).code b i w))
    (hsp : m.word 0 = saturate sp) (hlow : stackBase ≤ sp) (hhigh : sp ≤ heapBase)
    (hdiscreet : Discreet ((Statement.assignElement array index value).code b i w).length m)
    (h : Through ((Statement.assignElement array index value).code b i w).length m m') :
    ∃ m₁ m₂ m₃ m₄, Locates b array index sp m m₁ m₂ m₃ ∧
      Through (value.code b).length m₃ m₄ ∧ m₄.word 0 = saturate (sp + 2) ∧
      Walk 4 m₄ m' ∧ StoresElement (m₃.word sp) sp m₄ m' := by
  obtain ⟨ks, -, hruns⟩ := exists_runsCode hc hl hrunning
  rw [Statement.mentions, List.cons_append, List.forall_mem_cons, List.forall_mem_append] at hdeclares
  obtain ⟨harray, hindex, hvalue⟩ := hdeclares
  have hcode : (Statement.assignElement array index value).code b i w = b.read array ++
      (index.code b ++ ([.command .add] ++ (value.code b ++ storeElement))) := by
    simp [Statement.code]
  have hlength : ((Statement.assignElement array index value).code b i w).length =
      (b.read array).length + ((index.code b).length + (1 + ((value.code b).length + 4))) := by
    rw [hcode]
    simp [storeElement]
    omega
  rw [hcode] at hstands
  rw [hlength] at hdiscreet h
  obtain ⟨m₁, m₂, m₃, hlocates, hruns₃, hstands₃, hdiscreet₃, h⟩ :=
    exists_locates hruns harray hindex hstands hsp hlow hhigh hdiscreet h
  simp only [stackBase, heapBase] at hlow hhigh
  -- the value is evaluated above the address
  have hface₃ : Facing _ (value.code b) (sp + 1) 1 m₃ :=
    { runs := hruns₃
      stands := (placed_append.1 hstands₃).1
      calculates := calculates_code value
      settles := value.settle_code hvalue 0
      sp_eq := hlocates.stack
      low := by omega
      high := by omega
      discreet := hdiscreet₃.head }
  obtain ⟨m₄, hm₄, habreast₄, h⟩ := hface₃.split h
  have hstands₄ := hm₄.placed hstands₃
  have hdiscreet₄ : Discreet storeElement.length m₄ := hdiscreet₃.tail hm₄
  have hmodest : ∀ {k x}, k < 4 → Walk k m₄ x → x.Modest := fun hk hx =>
    hdiscreet₄.modest hstands₄ straight_storeElement hx hk
  have hroom : sp + 1 + 1 ≤ heapBase := habreast₄.le_of_modest (hmodest (by decide) (.refl m₄))
  have hw : Walk 4 m₄ m' := Through.walk hstands₄ straight_storeElement h
  have hstores := storesElement_of_walk ⟨habreast₄.sp_eq, by omega, hroom⟩ (by omega) hstands₄ hw
    fun x hx => (hmodest (by decide) hx).stores
  have haddress : m₄.word sp = m₃.word sp := habreast₄.cells sp hlow (Nat.lt_succ_self sp)
  rw [haddress] at hstores
  exact ⟨m₁, m₂, m₃, m₄, hlocates, hm₄, habreast₄.sp_eq, hw, hstores⟩

end Assignment

/-! ## One assignment -/

def constantSource : String :=
  "class A \x7b static Array a; function void f() { let a[3000] = 7; return; } \x7d"

def constantStatement : Statement :=
  .assignElement "a" (.term (.integer 3000)) (.term (.integer 7))

def constantSubroutine : SubroutineDeclaration where
  kind := .function
  returnType := none
  name := "f"
  parameters := []
  locals := []
  body := .cons constantStatement (.cons (.giveBack none) .nil)

def constantClass : ClassDeclaration where
  name := "A"
  declarations := [⟨.ofClass, ⟨.object "Array", "a", []⟩⟩]
  subroutines := [constantSubroutine]

def storeCode : List Instruction :=
  [.push .statics 0, .push .constant 3000, .command .add, .push .constant 7,
    .pop .temp 0, .pop .pointer 1, .push .temp 0, .pop .that 0]

def constantCode : List Instruction :=
  .function "A.f" 0 :: storeCode ++ [.command .ret]

def constantProgram : Program := .ofInstructions constantCode

theorem constantClass_code : constantClass.code = constantCode := by decide

theorem constantClass_compiles : constantClass.Compiles (.ofString constantSource) := by
  decide +kernel

theorem compileText_constant :
    [constantSource].mapM compileText = .ok [Instruction.listing constantCode] := by
  rw [← constantClass_code]
  exact mapM_compileText (.cons constantClass_compiles .nil)

theorem load_constant :
    load (String.join [Instruction.listing constantCode]) = .ok (ofProgram constantProgram) := by
  rw [constantProgram, ← constantClass_code]
  exact load_of_compiles constantClass_compiles (by decide)

theorem functions_constant : constantProgram.functions["A.f"]? = some 0 :=
  Program.functions_of_getElem? rfl (by decide)

/-- The machine before the assignment. -/
def constantMachine : Machine := ((ofProgram constantProgram).entered "A.f" 0 none 0).next

theorem running_constantMachine : Running (ofProgram constantProgram) constantMachine :=
  (Running.enter .loaded (run_enterFunction 0 none functions_constant)).step rfl

theorem code_constantStatement :
    constantStatement.code (bindings constantClass constantSubroutine) 0 0 = storeCode := by
  decide

theorem placed_constantMachine : Placed constantMachine.program constantMachine.pc storeCode :=
  ⟨rfl, rfl, rfl, rfl, rfl, rfl, rfl, rfl, trivial⟩

theorem straight_storeCode : ∀ i ∈ storeCode, Straight i := by
  simp [storeCode, Straight]

def constantSketch : Sketch := (Sketch.initial.entered 0 0).next

theorem draws_constantMachine :
    Draws ((ofProgram constantProgram).entered "A.f" 0 none 0) constantSketch constantMachine :=
  ((draws_ofProgram constantProgram).entered rfl).next

theorem word_constantMachine : constantMachine.word 0 = saturate 256 := draws_constantMachine.word 0

/-- The machine walks to the store with the address in `pointer 1`, and on. -/
theorem walks_constantMachine : ∃ m m', Walk 7 constantMachine m ∧ m.word 4 = saturate 3000 ∧
    Walk 1 m m' ∧ Room 7 constantMachine := by
  have hnodup : (labelsOf constantCode).Nodup := List.nodup_nil
  obtain ⟨s, hs, haddress, hgoes⟩ : ∃ s ∈ (constantSketch.trail constantCode "A.f" 8)[7]?,
      s.word 4 = saturate 3000 ∧ (s.step? constantCode "A.f").isSome := by decide +kernel
  obtain ⟨s', hs'⟩ := Option.isSome_iff_exists.1 hgoes
  obtain ⟨m, hw, hm⟩ := draws_constantMachine.exists_walk rfl hnodup hs
  obtain ⟨m', hw', -⟩ := hm.step rfl hnodup hs'
  exact ⟨m, m', hw, (hm.word 4).trans haddress, hw', @Draws.room _ _ _ 8 _ rfl hnodup
    draws_constantMachine (by decide +kernel) (by decide +kernel) 7⟩

/-- It stores to the heap only. -/
theorem discreet_constantMachine : Discreet storeCode.length constantMachine := by
  obtain ⟨m₇, m₈, hway, haddress, -, hroom⟩ := walks_constantMachine
  refine Discreet.of_walk placed_constantMachine straight_storeCode fun j hj m hw => ?_
  obtain ⟨sp, hle, hsp⟩ := hroom j (Nat.le_of_lt_succ hj) m hw
  refine ⟨?_, by rw [hsp, toInt_saturate (by omega)]; omega⟩
  obtain ⟨hu, -, hpc⟩ :=
    Underway.of_walk placed_constantMachine straight_storeCode hw (Nat.le_of_lt hj)
  have hi : m.instruction? = some storeCode[j] := by
    rw [instruction?, hpc, hu.grown.program]
    exact placed_constantMachine.getElem? (List.getElem?_eq_getElem hj)
  obtain rfl | hlt : j = 7 ∨ j < 7 := by
    simp only [storeCode, List.length_cons, List.length_nil] at hj
    omega
  · obtain rfl := hw.unique hway
    intro a ha
    rw [storeAddress?, hi] at ha
    cases ha
    rw [haddress]
    decide
  · have hnone : m.storeAddress? = none := by
      rw [storeAddress?, hi]
      have hmem : storeCode[j] ∈ storeCode.take 7 := 
        List.mem_take_iff_getElem.2 ⟨j, Nat.lt_min.2 ⟨hlt, hj⟩, rfl⟩
      generalize storeCode[j] = i at hmem
      simp only [storeCode, List.take, List.mem_cons, List.not_mem_nil, or_false] at hmem
      obtain rfl | rfl | rfl | rfl | rfl | rfl | rfl := hmem <;> simp [Routine.call]
    simp [hnone]

theorem stores_of_through_constant : ∃ m', Through 8 constantMachine m' ∧
    ∃ m₁ m₂ m₃ m₄, Locates (bindings constantClass constantSubroutine) "a" (.term (.integer 3000))
      256 constantMachine m₁ m₂ m₃ ∧ Through 1 m₃ m₄ ∧ m₄.word 0 = saturate 258 ∧
      Walk 4 m₄ m' ∧ StoresElement (m₃.word 256) 256 m₄ m' := by
  obtain ⟨m₇, m', hway, -, hlast, -⟩ := walks_constantMachine
  have hw := hway.trans hlast
  have hplaced := placed_constantMachine
  obtain ⟨hu, hframes, hpc⟩ := Underway.of_walk hplaced straight_storeCode hw (Nat.le_refl 8)
  have hthrough : Through storeCode.length constantMachine m' := ⟨hu, congrArg List.length hframes, hpc⟩
  have hdiscreet := discreet_constantMachine
  rw [← code_constantStatement] at hplaced hdiscreet hthrough
  have hdeclares : ∀ name ∈ constantStatement.mentions,
      (bindings constantClass constantSubroutine).Declares name := by decide +kernel
  exact ⟨m', hthrough, stores_of_through compileText_constant load_constant running_constantMachine
    hdeclares hplaced word_constantMachine (by decide) (by decide) hdiscreet hthrough⟩

end Machine

end Jack

import Jack.Proofs.Calculation
import Jack.Proofs.ControlSafety
import Jack.Proofs.Footing
import Jack.Proofs.Slots
import Jack.Proofs.Stretches
import Jack.Proofs.Unambiguous

/-!
# The receiver

The first argument of a method and the register `this` are two places for one object. No variable can be
called `this`, so that nothing is ever stored to the first argument, and the register is set once, before
the body begins (`bindsOnce_definition`). What is called in between puts the register back, and so the
two are the same as long as the method is carried out (`receiver_kept`).
-/

namespace Jack

open Machine Syntax Compiler
open Token (Kind)

/-! ## Binding once -/

/-- The object is bound in front of the body if at all, and in a method it stays the first argument. -/
def BindsOnce (kind : Subroutine.Kind) (code : List Instruction) : Prop :=
  match kind with
  | .method => .pop .arguments 0 ∉ code ∧ code.count (.pop .pointer 0) = 1 ∧
      ∃ name count body, code = [.function name count, .push .arguments 0, .pop .pointer 0] ++ body
  | .constructor => code.count (.pop .pointer 0) = 1
  | .function => code.count (.pop .pointer 0) = 0

namespace Syntax

variable {k : ClassDeclaration} {d : SubroutineDeclaration} {i w : Nat}

/-- Code pops to variables that it names, to the current element and to the temporary value. -/
theorem pop_of_occurs {b : Bindings} {kinds : List Kind} {segment : Segment} {index : Nat}
    (h : Occurs b kinds (.pop segment index)) :
    (segment, index) ∈ [(.pointer, 1), (.temp, 0), (.that, 0)] ∨
      ∃ name s, .identifier name ∈ kinds ∧ b.resolve name = some s ∧ (segment, index) = s.slot := by
  generalize hi : Instruction.pop segment index = j at h
  cases h with
  | compute h =>
    cases h with
    | pointer =>
      cases hi
      exact .inl (by simp)
    | this =>
      unfold Bindings.this at hi
      split at hi <;> simp at hi
    | _ => simp [Symbol.push, Routine.call] at hi
  | @write name s hn hs =>
    cases hi
    exact .inr ⟨name, s, hn, hs, rfl⟩
  | popTemp | popThat =>
    cases hi
    exact .inl (by simp)
  | _ => simp at hi

theorem popObject_notMem : .pop .pointer 0 ∉ d.body.code (bindings k d) i w := by
  intro hmem
  obtain hslot | ⟨name, s, -, -, hslot⟩ := pop_of_occurs (d.body.occurs (.refl d.body.tokens) _ hmem)
  · simp at hslot
  · cases hk : s.kind <;> simp [Symbol.slot, hk, Symbol.Kind.segment] at hslot

/-- Only `this` is the first argument of a method, and that is no name of a variable. -/
theorem popReceiver_notMem {source : Source} (hk : k.Compiles source) (hd : d ∈ k.subroutines)
    (hmethod : d.kind = .method) : .pop .arguments 0 ∉ d.body.code (bindings k d) i w := by
  intro hmem
  have hbody : Within d.body.tokens k.tokens := (within_of_mem_subroutines hd).part
    (by simp +contextual [SubroutineDeclaration.tokens]) (by simp [SubroutineDeclaration.tokens]; omega)
  obtain hslot | ⟨name, s, hname, hs, hslot⟩ := pop_of_occurs (d.body.occurs hbody _ hmem)
  · simp at hslot
  · obtain ⟨hsegment, hindex⟩ := Prod.mk.inj hslot
    have hargument : s.kind = .argument := by
      cases h : s.kind <;> simp [h, Symbol.Kind.segment] at hsegment ⊢
    have hsound : (siteOf k d 6).Sound := sound_siteOf (by decide)
    obtain ⟨this, hthis, hkind, hzero⟩ := hsound.receiver hmethod
    have hsame := hsound.injective hs hthis (hargument.trans hkind.symm) (hindex.symm.trans hzero.symm)
    exact (hk.legal _ hname : IsName name).ne_keyword .thisKeyword hsame

/-- What the code of a subroutine binds as the current object it binds in front of the body. -/
theorem bindsOnce_definition {source : Source} (hk : k.Compiles source) (hd : d ∈ k.subroutines) :
    BindsOnce d.kind (d.definition k i w).code := by
  have hcount : (d.body.code (bindings k d) i w).count (.pop .pointer 0) = 0 :=
    List.count_eq_zero.2 popObject_notMem
  unfold BindsOnce
  cases hkind : d.kind with
  | constructor | function =>
    simp [Definition.code, SubroutineDeclaration.definition, hkind, bindObject, Routine.call, hcount]
  | method =>
    have hmem : .pop .arguments 0 ∉ d.body.code (bindings k d) i w := popReceiver_notMem hk hd hkind
    refine ⟨?_, ?_, _, _, _, by rw [Definition.code, SubroutineDeclaration.definition, hkind]; rfl⟩
    · simp [Definition.code, SubroutineDeclaration.definition, hkind, bindObject, hmem]
    · simp [Definition.code, SubroutineDeclaration.definition, hkind, bindObject, hcount]

end Syntax

namespace Machine

/-! ## Methods in a program -/

/-- A method among the definitions of a program, the last one of its name. -/
structure Method where
  before : List Definition
  definition : Definition
  after : List Definition
  body : List Instruction
  closed : ∀ d ∈ before ++ definition :: after, d.Closed
  last : ∀ d ∈ after, d.name ≠ definition.name
  body_eq : definition.body = bindObject 0 .method ++ body
  argument : .pop .arguments 0 ∉ body
  object : .pop .pointer 0 ∉ body

namespace Method

variable (M : Method)

def definitions : List Definition := M.before ++ M.definition :: M.after

def code : List Instruction := codeOf M.definitions

def entry : Nat := (codeOf M.before).length

variable {M} {pc j : Nat} {i : Instruction}

theorem getElem?_code (h : j ≤ M.body.length + 2) : M.code[M.entry + j]? =
    (.function M.definition.name M.definition.localCount ::
      bindObject 0 .method ++ M.body : List Instruction)[j]? := by
  have hlength : M.definition.body.length = M.body.length + 2 := by
    rw [M.body_eq, List.length_append, Nat.add_comm]
    rfl
  rw [code, entry, definitions, getElem?_definition (by omega), Definition.code, M.body_eq]
  rfl

theorem code_entry : M.code[M.entry]? =
    some (.function M.definition.name M.definition.localCount) :=
  getElem?_code (Nat.zero_le _)

theorem code_push : M.code[M.entry + 1]? = some (.push .arguments 0) := getElem?_code (by omega)

theorem code_pop : M.code[M.entry + 2]? = some (.pop .pointer 0) := getElem?_code (by omega)

theorem exists_offset (h : InLast M.definitions M.definition.name pc) :
    ∃ j ≤ M.body.length + 2, pc = M.entry + j := by
  obtain ⟨before, d, after, hsplit, hname, hlast, j, hj, rfl⟩ := h
  have hlength : M.definition.body.length = M.body.length + 2 := by
    rw [M.body_eq, List.length_append, Nat.add_comm]
    rfl
  have hd : d ∉ M.after := fun hmem => M.last d hmem hname
  have hM : M.definition ∉ after := fun hmem => hlast _ hmem rfl
  rcases Program.same_or_before hsplit hd with ⟨rfl, rfl⟩ | hle
  · exact ⟨j, hlength ▸ hj, rfl⟩
  · rcases Program.same_or_before hsplit.symm hM with ⟨hbefore, heq⟩ | hle'
    · rw [← hbefore, Definition.length_code] at hle
      omega
    · rw [Definition.length_code] at hle hle'
      omega

theorem functions_eq : (Program.ofInstructions M.code).functions[M.definition.name]? = some M.entry :=
  Program.functions_of_last (fun d hd => (M.closed d hd).whole) M.last

/-- What does not stand in the prologue stands behind it. -/
theorem le_of_notMem (h : InLast M.definitions M.definition.name pc) (hi : M.code[pc]? = some i)
    (hne : i ∉ [.function M.definition.name M.definition.localCount, .push .arguments 0,
      .pop .pointer 0]) : M.entry + 3 ≤ pc := by
  obtain ⟨j, hj, rfl⟩ := exists_offset h
  rw [getElem?_code hj] at hi
  by_contra hlt
  obtain rfl | rfl | rfl : j = 0 ∨ j = 1 ∨ j = 2 := by omega
  all_goals exact hne (by simp [bindObject] at hi; simp [hi])

/-- Behind the prologue neither the first argument nor the object is popped to. -/
theorem mem_body (hpc : M.entry + 3 ≤ pc) (h : InLast M.definitions M.definition.name pc)
    (hi : M.code[pc]? = some i) : i ∈ M.body := by
  obtain ⟨j, hj, rfl⟩ := exists_offset h
  obtain ⟨n, rfl⟩ := Nat.exists_eq_add_of_le' (Nat.le_of_add_le_add_left hpc)
  rw [getElem?_code hj] at hi
  exact List.mem_of_getElem? hi

end Method

/-! ## The activation of a method -/

variable {M : Method} {caller m m' : Machine} {base count sp depth : Nat} {receiver : Word}

/-- How far the receiver has come on its way from the first argument to the register. -/
inductive Stage (entry sp : Nat) (receiver : Word) (m : Machine) : Prop
  | function (h : m.pc = entry)
  | push (h : m.pc = entry + 1)
  | pop (h : m.pc = entry + 2) (htop : m.word (sp - 1) = receiver)
  | body (h : entry + 3 ≤ m.pc) (hthis : m.word 3 = receiver)

/-- The method is carried out for the caller, and it is the innermost activation. -/
structure Serves (M : Method) (caller : Machine) (base count : Nat) (receiver : Word) (sp depth : Nat)
    (m : Machine) : Prop where
  level : Level M.code caller caller.called base [] sp (base + count) base depth m
  function : m.function = M.definition.name
  here : InLast M.definitions M.definition.name m.pc
  cell : m.word base = receiver
  stage : Stage M.entry sp receiver m

/-- The method has made a call, and waits for its value. -/
def Waits (M : Method) (caller : Machine) (base count : Nat) (receiver : Word) (m : Machine) : Prop :=
  ∃ waiting sp depth name given, Serves M caller base count receiver sp depth waiting ∧
    waiting.instruction? = some (.call name given) ∧ given ≤ depth ∧
      Within M.code waiting (sp - given) m

theorem Waits.length_lt (h : Waits M caller base count receiver m) :
    caller.frames.length + 1 < m.frames.length := by
  obtain ⟨waiting, sp, depth, name, given, hserves, -, -, hwithin⟩ := h
  have hlt := hwithin.length_lt
  rwa [hserves.level.frames] at hlt

/-- In the first activation itself one stands where that began. -/
theorem exists_level_nil {code : List Instruction} {before : Machine} {bottom : List Frame} {lcl : Nat}
    (h : Inside code before bottom base m) (hframes : m.frames = bottom)
    (hlcl : m.word 1 = saturate lcl) (hle : lcl ≤ 32767) :
    ∃ sp depth, Level code before bottom base [] sp lcl base depth m := by
  obtain ⟨inner, sp, lcl', arg, depth, hlevel⟩ := h
  obtain rfl : inner = [] := by
    have hlength := congrArg List.length (hlevel.frames.symm.trans hframes)
    simpa using hlength
  obtain rfl : arg = base := hlevel.nested
  have hle' := hlevel.le
  have hhigh := hlevel.high
  obtain rfl := saturate_inj (by omega) hle (hlevel.lcl_eq.symm.trans hlcl)
  exact ⟨sp, depth, hlevel⟩

section Steps

variable (hcode : Settled M.code)
  (hplaced : ∀ segment index, .pop segment index ∈ M.code → WellPlaced segment index)
  (hbase : stackBase ≤ base) (hcount : 0 < count)

theorem Serves.getElem? {i : Instruction} (h : Serves M caller base count receiver sp depth m)
    (hi : m.instruction? = some i) : M.code[m.pc]? = some i := by
  rwa [instruction?_of_program h.level.program] at hi

/-- The first argument is not popped to. -/
theorem Serves.ne_popArgument {i : Instruction} (h : Serves M caller base count receiver sp depth m)
    (hi : m.instruction? = some i) : i ≠ .pop .arguments 0 := by
  rintro rfl
  have hi := h.getElem? hi
  cases h.stage with
  | function hpc =>
    rw [hpc, Method.code_entry] at hi
    simp at hi
  | push hpc =>
    rw [hpc, Method.code_push] at hi
    simp at hi
  | pop hpc =>
    rw [hpc, Method.code_pop] at hi
    simp at hi
  | body hpc => exact M.argument (Method.mem_body hpc h.here hi)

theorem Serves.this (h : Serves M caller base count receiver sp depth m) (hpc : M.entry + 3 ≤ m.pc) :
    m.word 3 = receiver := by
  cases h.stage with
  | function heq | push heq | pop heq => omega
  | body _ hthis => exact hthis

include hcode hbase

/-- A call of a function would show in the frames. -/
theorem Serves.isSome_builtin? {name : String} {given : Nat} {r : Option Word}
    (h : Serves M caller base count receiver sp depth m)
    (hi : m.instruction? = some (.call name given)) (hframes : m'.frames = m.frames)
    (hstep : Machine.step.run m = .ok r m') : (builtin? name given).isSome := by
  have hlevel := h.level
  have hle := hlevel.le
  simp only [stackBase] at hbase
  obtain ⟨hgiven, -⟩ := hcode.depthAt_call (hlevel.getElem? hi) hlevel.depth_eq
  cases hb : builtin? name given with
  | some routine => rfl
  | none =>
    obtain ⟨-, hwithin⟩ := within_of_call hcode hlevel.program hlevel.heap hi hb hlevel.sp_eq
      (by omega) hlevel.high hstep
    have hlt := hwithin.length_lt
    rw [hframes] at hlt
    exact absurd hlt (Nat.lt_irrefl _)

/-- A cell below the locals that an instruction does not pop to is kept. -/
theorem Serves.word_eq {i : Instruction} {r : Option Word} {a : Nat}
    (h : Serves M caller base count receiver sp depth m) (hm : m.Modest)
    (hi : m.instruction? = some i) (hret : i ≠ .command .ret) (hframes : m'.frames = m.frames)
    (hstep : Machine.step.run m = .ok r m') (ha : 0 < a) (hlt : a < base + count)
    (havoids : i.Avoids a base) : m'.word a = m.word a := by
  have hlow : 2 < base := Nat.lt_of_lt_of_le (by decide) hbase
  have hcall : ∀ name given, i = .call name given → (builtin? name given).isSome := by
    rintro name given rfl
    exact h.isSome_builtin? hcode hbase hi hframes hstep
  have hholds := h.level.holds hcode hlow (h.level.le_of_modest hm) ha hlt hm.stores hi hret hcall
    havoids
  rw [after, hstep] at hholds
  exact hholds.cell

include hplaced hcount

/-- What is no call and no return leaves the method innermost, its first argument as it was, and the
object too but where it is bound. -/
theorem Serves.kept {i : Instruction} {r : Option Word}
    (h : Serves M caller base count receiver sp depth m) (hm : m.Modest)
    (hi : m.instruction? = some i) (hret : i ≠ .command .ret) (hframes : m'.frames = m.frames)
    (hstep : Machine.step.run m = .ok r m') : ∃ sp' depth',
      Level M.code caller caller.called base [] sp' (base + count) base depth' m' ∧
        m'.word base = receiver ∧ (i ≠ .pop .pointer 0 → m'.word 3 = m.word 3) := by
  have hlevel := h.level
  have hhigh := hlevel.le_of_modest hm
  have hle := hlevel.le
  have hle' := hlevel.high
  have hlow : 2 < base := Nat.lt_of_lt_of_le (by decide) hbase
  have hword : ∀ a, 0 < a → a < base + count → i.Avoids a base → m'.word a = m.word a :=
    fun a => h.word_eq hcode hbase hm hi hret hframes hstep
  simp only [stackBase] at hbase
  have hwell : ∀ segment index, i = .pop segment index → WellPlaced segment index := by
    rintro segment index rfl
    exact hplaced _ _ (List.mem_of_getElem? (hlevel.getElem? hi))
  have hregister : m'.word 1 = m.word 1 :=
    hword 1 (by decide) (by omega) (i.avoids_of_lt (by decide) (by omega))
  have hargument : m'.word base = m.word base := by
    refine hword base (by omega) (by omega) (Instruction.avoids_of_ne (fun index hpop => ?_)
      (fun index hpop => ?_) fun index hpop heq => ?_)
    · have : index ≤ 1 := hwell _ _ hpop
      simp only [pointerBase]
      omega
    · have : index = 0 := hwell _ _ hpop
      simp only [tempBase]
      omega
    · obtain rfl : index = 0 := by omega
      exact h.ne_popArgument hi hpop
  have hobject : i ≠ .pop .pointer 0 → m'.word 3 = m.word 3 := by
    intro hne
    refine hword 3 (by decide) (by omega) (Instruction.avoids_of_ne (fun index hpop heq => ?_)
      (fun index _ => ?_) fun index _ => by omega)
    · obtain rfl : index = 0 := Nat.add_eq_left.1 heq.symm
      exact hne hpop
    · simp only [tempBase]
      omega
  obtain ⟨-, hinside⟩ | ⟨f, fs, -, hbottom, hleft⟩ :=
    hlevel.step hcode hlow hhigh hplaced hm.stores hstep
  · obtain ⟨sp', depth', hlevel'⟩ := exists_level_nil hinside (hframes.trans hlevel.frames)
      (hregister.trans hlevel.lcl_eq) (by omega)
    exact ⟨sp', depth', hlevel', hargument.trans h.cell, hobject⟩
  · have hlength := congrArg List.length (hframes.trans hbottom)
    rw [hleft.frames] at hlength
    simp at hlength

/-- The way to the next instruction. -/
theorem Serves.next {i : Instruction} {r : Option Word}
    (h : Serves M caller base count receiver sp depth m) (hm : m.Modest)
    (hi : m.instruction? = some i) (hret : i ≠ .command .ret) (hkept : Kept m.next m')
    (hstep : Machine.step.run m = .ok r m') :
    ∃ sp' depth', Serves M caller base count receiver sp' depth' m' := by
  obtain ⟨sp', depth', hlevel', hcell, hobject⟩ :=
    h.kept hcode hplaced hbase hcount hm hi hret hkept.frames hstep
  have hlevel := h.level
  have hhigh := hlevel.le_of_modest hm
  have hle := hlevel.le
  have hpc : m'.pc = m.pc + 1 := hkept.pc
  have hcode' := h.getElem? hi
  simp only [stackBase, heapBase] at hbase hhigh
  refine ⟨sp', depth', hlevel', hkept.function.trans h.function, ?_, hcell, ?_⟩
  · rw [hpc]
    exact h.here.next M.closed hcode' hret
  cases h.stage with
  | function hentry => exact .push (by rw [hpc, hentry])
  | push hentry =>
    rw [hentry, Method.code_push, Option.some.injEq] at hcode'
    subst hcode'
    have harg : m.next.word Register.arg.address = saturate base := hlevel.arg_eq
    have hread : (readElement .arguments 0).run m.next = .ok receiver m.next := by
      rw [run_readElement (run_locate_of_base rfl harg (by omega)) (by omega)]
      exact congrArg (EStateM.Result.ok · m.next) h.cell
    rw [run_step_push hi hread hlevel.sp_eq (by omega)] at hstep
    cases hstep
    have hword := fun a => word_pushed (m := m.next) a receiver (show sp ≤ 32767 by omega)
    obtain rfl := saturate_inj (by omega) hlevel'.high ((hword 0).symm.trans hlevel'.sp_eq)
    refine .pop (by rw [hpc, hentry]) ?_
    rw [Nat.add_sub_cancel, hword, if_neg (by omega), if_pos rfl]
  | pop hentry htop =>
    rw [hentry, Method.code_pop, Option.some.injEq] at hcode'
    subst hcode'
    obtain ⟨k, rfl⟩ : ∃ k, sp = k + 1 := ⟨sp - 1, by omega⟩
    have hpop := run_step_pop hi (run_locate_of_fixed rfl) (by decide) hlevel.sp_eq (by omega)
      (by omega)
    rw [hpop] at hstep
    cases hstep
    refine .body (by omega) ?_
    rw [word_put_of_lt _ _ (by decide), if_pos (show pointerBase + 0 = 3 from rfl)]
    exact htop
  | body hentry hthis =>
    refine .body (by omega) ((hobject ?_).trans hthis)
    rintro rfl
    exact M.object (Method.mem_body hentry h.here hcode')

/-- A jump stays behind the prologue. -/
theorem Serves.jump {i : Instruction} {r : Option Word} {name : String} {pc : Nat}
    (h : Serves M caller base count receiver sp depth m) (hm : m.Modest)
    (hi : m.instruction? = some i) (ht : i.target? = some name)
    (hl : m.program.labels[(m.function, name)]? = some pc) (hkept : Kept { m with pc } m')
    (hstep : Machine.step.run m = .ok r m') :
    ∃ sp' depth', Serves M caller base count receiver sp' depth' m' := by
  have hret : i ≠ .command .ret := by
    rintro rfl
    simp [Instruction.target?] at ht
  obtain ⟨sp', depth', hlevel', hcell, hobject⟩ :=
    h.kept hcode hplaced hbase hcount hm hi hret hkept.frames hstep
  have hcode' := h.getElem? hi
  obtain ⟨pc', hl', hin⟩ := h.here.jump M.closed hcode' ht
  rw [h.level.program, h.function] at hl
  obtain rfl := Option.some.inj (hl'.symm.trans hl)
  have hpc : m'.pc = pc' := hkept.pc
  refine ⟨sp', depth', hlevel', hkept.function.trans h.function, hpc ▸ hin, hcell, ?_⟩
  have hlabel : M.code[pc']? = some (.label name) := (Program.labels_eq_some.1 hl).1.1
  have hthis := h.this (Method.le_of_notMem h.here hcode' (by
    simp only [List.mem_cons, List.not_mem_nil, or_false]
    rintro (rfl | rfl | rfl) <;> simp [Instruction.target?] at ht))
  refine .body (hpc ▸ Method.le_of_notMem hin hlabel (by simp)) ((hobject ?_).trans hthis)
  rintro rfl
  simp [Instruction.target?] at ht

/-- A step of the method goes on with it, into a call, or back to the caller. -/
theorem Serves.step (h : Serves M caller base count receiver sp depth m) (hm : m.Modest)
    (hstep : Machine.step.run m = .ok none m') :
    (∃ sp' depth', Serves M caller base count receiver sp' depth' m') ∨
      Waits M caller base count receiver m' ∨ m'.frames = caller.frames := by
  have hlevel := h.level
  have hle := hlevel.le
  have hmoves := moves_step m
  rw [hstep] at hmoves
  generalize hr : EStateM.Result.ok (none : Option Word) m' = result at hmoves
  cases hmoves with
  | on hi hret hkept =>
    cases hr
    exact .inl (h.next hcode hplaced hbase hcount hm hi hret hkept hstep)
  | jump hi ht hl hkept =>
    cases hr
    exact .inl (h.jump hcode hplaced hbase hcount hm hi ht hl hkept hstep)
  | @enter name given entry hi hb hf =>
    cases hr
    obtain ⟨hgiven, -⟩ := hcode.depthAt_call (hlevel.getElem? hi) hlevel.depth_eq
    obtain ⟨-, hwithin⟩ := within_of_call hcode hlevel.program hlevel.heap hi hb hlevel.sp_eq
      (by omega) hlevel.high hstep
    exact .inr (.inl ⟨m, sp, depth, name, given, h, hi, hgiven, hwithin⟩)
  | leave hi hframes hframes' =>
    simp only [EStateM.Result.ok.injEq] at hr
    obtain ⟨-, rfl⟩ := hr
    rw [hlevel.frames, List.nil_append] at hframes
    rw [← (List.cons.inj hframes).2] at hframes'
    exact .inr (.inr hframes')
  | fault | unknownLabel | unknownFunction | noCaller | popConstant | ended => cases hr

omit hplaced in
/-- Back from a call the method goes on as before. -/
theorem Serves.resume {name : String} {given : Nat}
    (h : Serves M caller base count receiver sp depth m)
    (hi : m.instruction? = some (.call name given)) (hgiven : given ≤ depth)
    (hprogram : m'.program = .ofInstructions M.code) (hheap : heapBase ≤ m'.heapEnd)
    (hroom : sp - given < 32767) (hr : Resumed m (sp - given) m') :
    ∃ sp' depth', Serves M caller base count receiver sp' depth' m' := by
  have hlevel := h.level
  have hle := hlevel.le
  have hcode' := h.getElem? hi
  have hbehind : M.entry + 3 ≤ m.pc := Method.le_of_notMem h.here hcode' (by simp)
  obtain ⟨-, hnext⟩ := hcode.depthAt_call (hlevel.getElem? hi) hlevel.depth_eq
  refine ⟨sp - given + 1, depth - given + 1,
    { program := hprogram
      heap := hheap
      cells := fun a ha hlt => (hr.cells a ha (by omega)).trans (hlevel.cells a ha hlt)
      frames := hr.frames.trans hlevel.frames
      nested := rfl
      sp_eq := hr.sp_eq
      lcl_eq := (hr.registers 1 (by decide) (by decide)).trans hlevel.lcl_eq
      arg_eq := (hr.registers 2 (by decide) (by decide)).trans hlevel.arg_eq
      arg_le := hlevel.arg_le
      depth_eq := by rw [hr.pc, hnext]
      le := by omega
      high := hroom }, hr.function.trans h.function, ?_,
    (hr.cells base hbase (by omega)).trans h.cell, ?_⟩
  · rw [hr.pc]
    exact h.here.next M.closed hcode' (by simp)
  · refine .body (by rw [hr.pc]; omega) ((hr.registers 3 (by decide) (by decide)).trans ?_)
    exact h.this hbehind

/-- A step of a call goes on with it, or back to the method. -/
theorem Waits.step (h : Waits M caller base count receiver m) (hm : m.Modest)
    (hstep : Machine.step.run m = .ok none m') :
    (∃ sp' depth', Serves M caller base count receiver sp' depth' m') ∨
      Waits M caller base count receiver m' := by
  obtain ⟨waiting, sp, depth, name, given, hserves, hi, hgiven, inner, sp', lcl, arg, depth', hlevel⟩ := h
  have hhigh := hlevel.le_of_modest hm
  have hle := hserves.level.le
  have hnested := hlevel.nested.le
  have harg := hlevel.arg_le
  have hle' := hlevel.le
  simp only [stackBase] at hbase
  obtain ⟨-, hwithin | hresumed⟩ :=
    hlevel.step_within hcode (by omega) hhigh hplaced hm.stores hstep
  · exact .inr ⟨waiting, sp, depth, name, given, hserves, hi, hgiven, hwithin⟩
  · have hgrown := grown_step m
    rw [after, hstep] at hgrown
    simp only [heapBase] at hhigh
    exact .inl (hserves.resume hcode hbase hcount hi hgiven (hgrown.program.trans hlevel.program)
      (Nat.le_trans hlevel.heap hgrown.heapEnd) (by omega) hresumed)

end Steps

/-! ## Calls of a method -/

section Calls

variable (hcode : Settled M.code)
  (hplaced : ∀ segment index, .pop segment index ∈ M.code → WellPlaced segment index)
  (hprogram : caller.program = .ofInstructions M.code) (hheap : heapBase ≤ caller.heapEnd)
  (hi : caller.instruction? = some (.call M.definition.name count))
  (hb : builtin? M.definition.name count = none) (hcount : 0 < count)
  (hsp : caller.word 0 = saturate sp) (hlow : stackBase + count ≤ sp) (hhigh : sp ≤ 32767)

include hcode hprogram hheap hi hb hsp hlow hhigh

theorem serves_of_call {r : Option Word} (hstep : step.run caller = .ok r m) : ∃ sp' depth,
    Serves M caller (sp - count) count (caller.word (sp - count)) sp' depth m := by
  simp only [stackBase] at hlow
  have hwithin := (within_of_call hcode hprogram hheap hi hb hsp (by omega) hhigh hstep).2
  have hentry : caller.program.functions[M.definition.name]? = some M.entry := by
    rw [hprogram]
    exact Method.functions_eq
  have hsum : sp - count + count = sp := Nat.sub_add_cancel (by omega)
  have hsp' : caller.word 0 = saturate (sp - count + count) := by rw [hsum, hsp]
  rw [run_step_function hsp' (by omega) hi hb hentry] at hstep
  cases hstep
  have hword := word_entered caller.next M.definition.name count (some (caller.pc + 1)) M.entry
  obtain ⟨sp', depth, hlevel⟩ := exists_level_nil hwithin rfl ((hword 1).trans hsp') (by omega)
  refine ⟨sp', depth, hlevel, rfl, inLast_of_functions M.closed Method.functions_eq, ?_, .function rfl⟩
  rw [hword, if_neg (by omega), if_neg (by omega)]
  rfl

include hplaced hcount

theorem serves_or_waits (hmodest : ∀ m, Activation caller m → m.Modest) (h : Activation caller m) :
    (∃ sp' depth, Serves M caller (sp - count) count (caller.word (sp - count)) sp' depth m) ∨
      Waits M caller (sp - count) count (caller.word (sp - count)) m := by
  have hbase : stackBase ≤ sp - count := Nat.le_sub_of_add_le hlow
  induction h with
  | enter hstep hin =>
    exact .inl (serves_of_call hcode hprogram hheap hi hb hsp hlow hhigh hstep)
  | @step m m' h hstep hin ih =>
    rcases ih with ⟨sp', depth, hserves⟩ | hwaits
    · obtain hserves | hwaits | hback :=
        hserves.step hcode hplaced hbase hcount (hmodest m h) hstep
      · exact .inl hserves
      · exact .inr hwaits
      · rw [hback] at hin
        exact absurd hin (Nat.lt_irrefl _)
    · exact hwaits.step hcode hplaced hbase hcount (hmodest m h) hstep

end Calls

/-- The name leads to the code of a method at the address: no later definition has the name. -/
def LeadsToMethod (ks : List ClassDeclaration) (name : String) (entry : Nat) : Prop :=
  ∃ before k d i w after, ks.flatMap (·.definitions) = before ++ d.definition k i w :: after ∧
    k ∈ ks ∧ d ∈ k.subroutines ∧ d.kind = .method ∧ (d.definition k i w).name = name ∧
      (∀ f ∈ after, f.name ≠ name) ∧ entry = (codeOf before).length

theorem exists_method {ks : List ClassDeclaration} {name : String} {entry : Nat}
    (hks : ∀ k ∈ ks, ∃ source, k.Compiles source)
    (hends : ∀ k ∈ ks, ∀ d ∈ k.subroutines, d.body.EndsInReturn) (h : LeadsToMethod ks name entry) :
    ∃ M : Method, M.code = ks.flatMap (·.code) ∧ M.definition.name = name ∧ M.entry = entry := by
  obtain ⟨before, k, d, i, w, after, hsplit, hk, hd, hmethod, hname, hlast, hentry⟩ := h
  obtain ⟨source, hcompiles⟩ := hks k hk
  refine ⟨{ before, after
            definition := d.definition k i w
            body := d.body.code (bindings k d) i w
            closed := hsplit ▸ closed_of_mem hends
            last := hname ▸ hlast
            body_eq := by rw [SubroutineDeclaration.definition, hmethod]; rfl
            argument := popReceiver_notMem hcompiles hd hmethod
            object := popObject_notMem }, ?_, hname, hentry.symm⟩
  exact (congrArg codeOf hsplit.symm).trans (codeOf_flatMap_definitions ks)

/-! ## The receiver is kept -/

/-- Both places of the object hold the receiver: the first argument and the register. -/
structure Knows (receiver : Word) (m : Machine) : Prop where
  argument : ∃ a ≤ 32767, m.word Register.arg.address = saturate a ∧ m.word a = receiver
  this : m.word Register.this.address = receiver

/-- Wherever the instruction at hand takes the object from, it takes the receiver: as `this` and for a
call without a qualifier from the first argument, and for a field from the register. -/
structure Means (receiver : Word) (m : Machine) : Prop where
  value : (readElement .arguments 0).run m.next = .ok receiver m.next
  field : ∀ index, (locate index .this).run m.next =
    (do return .memory ((← address receiver) + index) : Exec Place).run m.next

theorem Knows.means (h : Knows receiver m) : Means receiver m := by
  obtain ⟨a, hle, harg, hcell⟩ := h.argument
  have harg' : m.next.word Register.arg.address = saturate a := harg
  have hthis : m.next.word Register.this.address = receiver := h.this
  constructor
  · rw [run_readElement (run_locate_of_base rfl harg' hle) hle]
    exact congrArg (EStateM.Result.ok · m.next) hcell
  · intro index
    simp only [locate, run_bind, run_register, hthis]

theorem Serves.knows (h : Serves M caller base count receiver sp depth m) (hle : base ≤ 32767)
    (hpc : m.pc ∉ [M.entry, M.entry + 1, M.entry + 2]) : Knows receiver m := by
  have hbehind : M.entry + 3 ≤ m.pc := by
    obtain ⟨j, -, hj⟩ := Method.exists_offset h.here
    simp only [List.mem_cons, List.not_mem_nil, or_false, not_or] at hpc
    omega
  exact ⟨⟨base, hle, h.level.arg_eq, h.cell⟩, h.this hbehind⟩

/-- In a run a call finds its arguments above the beginning of the stack. -/
theorem Orderly.exists_arguments {code : List Instruction} {name : String} (hcode : Settled code)
    (hplaced : ∀ segment index, .pop segment index ∈ code → WellPlaced segment index)
    (h : Orderly (ofProgram (.ofInstructions code)) m)
    (hi : m.instruction? = some (.call name count)) :
    m.program = .ofInstructions code ∧ heapBase ≤ m.heapEnd ∧
      ∃ sp, m.word 0 = saturate sp ∧ stackBase + count ≤ sp ∧ sp ≤ 32767 := by
  obtain ⟨_, _, _, base, -, hbase, inner, sp, lcl, arg, depth, hlevel⟩ := h.footed hcode hplaced
  obtain ⟨hgiven, -⟩ := hcode.depthAt_call (hlevel.getElem? hi) hlevel.depth_eq
  have hnested := hlevel.nested.le
  have harg := hlevel.arg_le
  have hle := hlevel.le
  exact ⟨hlevel.program, hlevel.heap, sp, hlevel.sp_eq, by omega, hlevel.high⟩

/-- The receiver of a method never changes. A method stores nothing to its first argument, and binds its
object once, in its prologue; a constructor binds its object once, and a function none. So behind the
prologue of a method that a call with arguments has entered, wherever the run has led it meanwhile, both
places of the object hold the first argument of the call, and the code means this object by either. -/
theorem receiver_kept :
    (∀ {source : Source} {code : List Instruction} {f : Definition}, compileClass source = .ok code →
      f.IsIn code → ∃ (k : ClassDeclaration) (d : SubroutineDeclaration) (i w : Nat),
        k.Compiles source ∧ d ∈ k.subroutines ∧ f = d.definition k i w ∧ BindsOnce d.kind f.code) ∧
    ∀ {sources texts : List String} {ks : List ClassDeclaration} {m₀ caller : Machine} {name : String}
      {count entry : Nat}, sources.mapM compileText = .ok texts →
      List.Forall₂ (fun source k => k.Compiles (.ofString source)) sources ks →
      (∀ k ∈ ks, ∀ d ∈ k.subroutines, d.body.EndsInReturn) →
      load (String.join texts) = .ok m₀ → Orderly m₀ caller →
      caller.instruction? = some (.call name count) → builtin? name count = none → 0 < count →
      LeadsToMethod ks name entry → (∀ m, Activation caller m → m.Modest) →
      ∀ m, Activation caller m → m.frames.length = caller.frames.length + 1 →
        m.pc ∉ [entry, entry + 1, entry + 2] →
          let receiver := caller.word ((caller.word 0).toInt.toNat - count)
          Knows receiver m ∧ Means receiver m := by
  refine ⟨fun {source code f} hc hf => ?_, fun {sources texts ks m₀ caller name count entry} hc hks hends
    hl horderly hi hb hcount hmethod hmodest m h hinnermost hpc => ?_⟩
  · obtain ⟨k, d, i, w, hk, hd, rfl⟩ := exists_definition_of_isIn hc hf
    exact ⟨k, d, i, w, hk, hd, rfl, bindsOnce_definition hk hd⟩
  · obtain rfl : ks.map (fun k => Instruction.listing k.code) = texts :=
      Except.ok.inj ((mapM_compileText hks).symm.trans hc)
    rw [join_listing] at hl
    have hcompiled := exists_compiles hks
    obtain ⟨-, rfl⟩ := (load_classes hcompiled).1 hl
    have hruns := runsCode_ofProgram hcompiled
    obtain ⟨M, hM, rfl, rfl⟩ := exists_method hcompiled hends hmethod
    rw [← hM] at horderly hruns
    obtain ⟨hprogram, hheap, sp, hsp, hlow, hhigh⟩ :=
      horderly.exists_arguments hruns.settled hruns.wellPlaced hi
    rw [hsp, toInt_saturate hhigh, Int.toNat_natCast]
    obtain ⟨sp', depth, hserves⟩ | hwaits := serves_or_waits hruns.settled hruns.wellPlaced hprogram
      hheap hi hb hcount hsp hlow hhigh hmodest h
    · have hknows := hserves.knows (Nat.le_trans (Nat.sub_le sp count) hhigh) hpc
      exact ⟨hknows, hknows.means⟩
    · have hlt := hwaits.length_lt
      omega

/-! ## One call of a method -/

def selfSource : String :=
  "class A \x7b method A self() { return this; } function A main() { return A.self(3000); } \x7d"

def selfSubroutine : SubroutineDeclaration where
  kind := .method
  returnType := some (.object "A")
  name := "self"
  parameters := []
  locals := []
  body := .cons (.giveBack (some (.term .this))) .nil

def mainSubroutine : SubroutineDeclaration where
  kind := .function
  returnType := some (.object "A")
  name := "main"
  parameters := []
  locals := []
  body := .cons (.giveBack (some (.term (.call (.qualified "A" "self"
    (.cons (.term (.integer 3000)) .nil)))))) .nil

def selfClass : ClassDeclaration where
  name := "A"
  declarations := []
  subroutines := [selfSubroutine, mainSubroutine]

def selfCode : List Instruction :=
  [.function "A.self" 0, .push .arguments 0, .pop .pointer 0, .push .arguments 0, .command .ret,
    .function "A.main" 0, .push .constant 3000, .call "A.self" 1, .command .ret]

def selfProgram : Program := .ofInstructions selfCode

theorem selfClass_code : selfClass.code = selfCode := by decide

theorem selfClass_compiles : selfClass.Compiles (.ofString selfSource) := by
  unfold selfSource Source.ofString
  simp only [String.reduceToList]
  decide +kernel

theorem compileText_self : [selfSource].mapM compileText = .ok [Instruction.listing selfCode] := by
  rw [← selfClass_code]
  exact mapM_compileText (.cons selfClass_compiles .nil)

theorem load_self :
    load (String.join [Instruction.listing selfCode]) = .ok (ofProgram selfProgram) := by
  rw [selfProgram, ← selfClass_code]
  exact load_of_compiles selfClass_compiles (by decide)

theorem functions_self : selfProgram.functions["A.self"]? = some 0 :=
  Program.functions_of_getElem? rfl (by decide)

theorem functions_main : selfProgram.functions["A.main"]? = some 5 :=
  Program.functions_of_getElem? rfl (by decide)

theorem leadsToMethod_self : LeadsToMethod [selfClass] "A.self" 0 :=
  ⟨[], selfClass, selfSubroutine, 0, 0, [mainSubroutine.definition selfClass 0 0], rfl,
    List.mem_singleton_self _, List.mem_cons_self, rfl, rfl, by decide, rfl⟩

/-- The machine that calls the method, with the object 3000. -/
def selfCaller : Machine := ((ofProgram selfProgram).entered "A.main" 0 none 5).next.next.pushed 256 3000

/-- The machine behind the entry of the method. -/
def selfEntered : Machine := selfCaller.next.entered "A.self" 1 (some 8) 0

theorem frames_selfEntered :
    selfEntered.frames = selfCaller.next.frame (some 8) :: selfCaller.frames := by
  have hentered : ∀ m : Machine,
      (m.next.entered "A.self" 1 (some 8) 0).frames = m.next.frame (some 8) :: m.frames := fun _ => rfl
  exact hentered selfCaller

/-- Up to the `return` there is one way through the method. -/
theorem Activation.exists_walk {start last : Machine} {n : Nat} (h : Activation caller m)
    (hstart : Machine.step.run caller = .ok none start) (hw : Walk n start last)
    (hback : ∀ m', Machine.step.run last = .ok none m' → m'.frames.length ≤ caller.frames.length) :
    ∃ j ≤ n, Walk j start m := by
  induction h with
  | enter hstep =>
    rw [hstart] at hstep
    cases hstep
    exact ⟨0, Nat.zero_le n, .refl start⟩
  | @step m m' h hstep hin ih =>
    obtain ⟨j, hj, hm⟩ := ih
    rcases Nat.lt_or_eq_of_le hj with hlt | rfl
    · obtain ⟨k, rfl⟩ := Nat.exists_eq_add_of_lt hlt
      obtain ⟨m₁, hm₁, hrest⟩ := Walk.split (show Walk (j + (k + 1)) start last from hw)
      obtain rfl := hm.unique hm₁
      cases hrest with
      | step hret hnext => exact ⟨j + 1, hlt, hm.trans (.single hret hstep)⟩
    · obtain rfl := hm.unique hw
      exact absurd (hback m' hstep) (Nat.not_le.2 hin)

def selfCallerSketch : Sketch := (Sketch.initial.entered 0 5).next.next.pushed 256 3000

theorem draws_selfCaller :
    Draws ((ofProgram selfProgram).entered "A.main" 0 none 5) selfCallerSketch selfCaller :=
  ((draws_ofProgram selfProgram).entered rfl).next.next.pushed 3000 (by decide)

def selfSketch : Sketch := selfCallerSketch.next.entered 1 0

theorem draws_selfEntered : Draws selfEntered selfSketch selfEntered :=
  draws_selfCaller.next.entered rfl

theorem modest_of_self {i : Instruction} (hi : m.instruction? = some i) (hmem : i ∈ selfCode)
    (hsp : m.word 0 = saturate sp) (hle : sp ≤ 2048) : m.Modest := by
  have hnone : m.storeAddress? = none := by
    refine storeAddress?_eq_none hi (fun index => ⟨?_, ?_⟩) ?_ <;> rintro rfl <;>
      exact absurd hmem (by simp [selfCode, Routine.call, Routine.text])
  refine ⟨by simp [hnone], ?_⟩
  rw [hsp, toInt_saturate (by omega)]
  omega

theorem orderly_selfCaller : Orderly (ofProgram selfProgram) selfCaller := by
  have henter := run_enterFunction (m := ofProgram selfProgram) 0 none functions_main
  obtain ⟨m₁, hm₁⟩ : ∃ m₁, m₁ = (ofProgram selfProgram).entered "A.main" 0 none 5 := ⟨_, rfl⟩
  have hsp : m₁.word 0 = saturate 256 := by rw [hm₁, word_entered, word_ofProgram]; rfl
  have hi : m₁.instruction? = some (.function "A.main" 0) := by rw [hm₁]; rfl
  have hi' : m₁.next.instruction? = some (.push .constant 3000) := by rw [hm₁]; rfl
  have hcaller : selfCaller = m₁.next.next.pushed 256 3000 := by rw [hm₁]; rfl
  rw [hcaller]
  rw [← hm₁] at henter
  refine ((Orderly.first henter).step (modest_of_self hi (by decide) hsp (by decide)) ?_).step
    (modest_of_self hi' (by decide) hsp (by decide)) ?_
  · exact run_step_entry hi
  · have hread : (readElement .constant 3000).run m₁.next.next = .ok 3000 m₁.next.next := rfl
    exact run_step_push hi' hread hsp (by decide)

/-- The machine comes to the `return` of the method. -/
theorem walks_selfEntered : ∃ last, Walk 4 selfEntered last ∧ last.word 0 = saturate 258 ∧
    last.word 2 = saturate 256 ∧ Room 4 selfEntered := by
  have hnodup : (labelsOf selfCode).Nodup := List.nodup_nil
  obtain ⟨s, hs, hsp, harg⟩ : ∃ s ∈ (selfSketch.trail selfCode "A.self" 4)[4]?,
      s.word 0 = saturate 258 ∧ s.word 2 = saturate 256 := by decide +kernel
  obtain ⟨last, hw, hlast⟩ := draws_selfEntered.exists_walk rfl hnodup hs
  exact ⟨last, hw, (hlast.word 0).trans hsp, (hlast.word 2).trans harg, @Draws.room _ _ _ 4 _ rfl
    hnodup draws_selfEntered (by decide +kernel) (by decide +kernel) 4⟩

theorem step_selfCaller : Machine.step.run selfCaller = .ok none selfEntered := by
  have hsp : selfCaller.word 0 = saturate (256 + 1) := draws_selfCaller.word 0
  exact run_step_function hsp (by decide) (show _ = some _ from rfl) (by decide) functions_self

/-- On the way to the `return` the machine stays in the method. -/
theorem stands_selfEntered {j : Nat} (hj : j ≤ 4) (hw : Walk j selfEntered m) :
    m.frames = selfEntered.frames ∧ m.pc = j ∧ m.instruction? = selfCode[j]? := by
  have hstands : Placed selfEntered.program selfEntered.pc (selfCode.take 4) :=
    ⟨rfl, rfl, rfl, rfl, trivial⟩
  have hstraight : ∀ i ∈ selfCode.take 4, Straight i := by
    simp [selfCode, Straight]
  obtain ⟨hu, hframes, hpc⟩ := Underway.of_walk hstands hstraight hw hj
  have hpc' : m.pc = j := hpc.trans (Nat.zero_add j)
  have hprogram : m.program = .ofInstructions selfCode := hu.grown.program
  exact ⟨hframes, hpc', by rw [instruction?_of_program hprogram, hpc']⟩

theorem activation_selfEntered {j : Nat} (hj : j ≤ 4) (hw : Walk j selfEntered m) :
    Activation selfCaller m := by
  have hin : ∀ m : Machine, m.frames = selfEntered.frames →
      selfCaller.frames.length < m.frames.length := by
    intro m hframes
    rw [hframes]
    exact Nat.lt_succ_self _
  induction j generalizing m with
  | zero =>
    cases hw
    exact .enter step_selfCaller (hin _ rfl)
  | succ j ih =>
    obtain ⟨m₁, hw₁, hlast⟩ := hw.split
    have hframes := (stands_selfEntered hj hw).1
    cases hlast with
    | step hret hstep hrefl =>
      cases hrefl
      exact (ih (Nat.le_of_succ_le hj) hw₁).step hstep (hin _ hframes)

theorem modest_activation_self (h : Activation selfCaller m) : m.Modest := by
  obtain ⟨last, hw, hsp, harg, hroom⟩ := walks_selfEntered
  obtain ⟨hframes, -, hi⟩ := stands_selfEntered (Nat.le_refl 4) hw
  have hi : last.instruction? = some (.command .ret) := hi
  have hback : ∀ m', Machine.step.run last = .ok none m' →
      m'.frames.length ≤ selfCaller.frames.length := by
    intro m' hstep
    have hsp' : last.next.word 0 = saturate ((257 : Nat) + 1) := by rw [word_next, hsp]
    have harg' : last.next.word 2 = saturate (256 : Nat) := by rw [word_next, harg]
    have hleave := run_leaveFunction hsp' (by decide) (by decide) harg' (by decide)
      (show last.next.frames = _ from hframes.trans frames_selfEntered)
    rw [run_step hi, perform, runCommand, hleave] at hstep
    cases hstep
    exact Nat.le_of_eq (congrArg List.length (frames_returned ..))
  obtain ⟨j, hj, hwalk⟩ := h.exists_walk step_selfCaller hw hback
  obtain ⟨sp, hle, hsp⟩ := hroom j hj m hwalk
  obtain ⟨-, -, hi⟩ := stands_selfEntered hj hwalk
  have hlt : j < selfCode.length := Nat.lt_of_le_of_lt hj (by decide)
  exact modest_of_self (hi.trans (List.getElem?_eq_getElem hlt)) (List.getElem_mem hlt) hsp hle

theorem receiver_kept_self :
    BindsOnce .method (selfSubroutine.definition selfClass 0 0).code ∧
      ∃ m, Activation selfCaller m ∧ m.pc = 4 ∧ Knows 3000 m ∧ Means 3000 m := by
  constructor
  · have hf : (selfSubroutine.definition selfClass 0 0).IsIn selfClass.code :=
      selfClass.isIn_code_iff.2 List.mem_cons_self
    obtain ⟨k, d, i, w, hk, hd, hdefinition, hbinds⟩ :=
      receiver_kept.1 selfClass_compiles.compileClass_eq hf
    obtain rfl := hk.unique selfClass_compiles
    obtain rfl | rfl : d = selfSubroutine ∨ d = mainSubroutine := by simpa [selfClass] using hd
    · exact hbinds
    · have hname : "A.self" = "A.main" := congrArg Definition.name hdefinition
      exact absurd hname (by decide)
  · obtain ⟨last, hw, -⟩ := walks_selfEntered
    obtain ⟨hframes, hpc, -⟩ := stands_selfEntered (Nat.le_refl 4) hw
    have hactivation := activation_selfEntered (Nat.le_refl 4) hw
    have hends : ∀ k ∈ [selfClass], ∀ d ∈ k.subroutines, d.body.EndsInReturn := by
      simp [selfClass, selfSubroutine, mainSubroutine, Block.EndsInReturn]
    have hinnermost : last.frames.length = selfCaller.frames.length + 1 := by
      rw [hframes, frames_selfEntered, List.length_cons]
    have hkept := receiver_kept.2 compileText_self (.cons selfClass_compiles .nil) hends load_self
      orderly_selfCaller (show selfCaller.instruction? = some (.call "A.self" 1) from rfl) (by decide)
      (by decide) leadsToMethod_self (fun _ => modest_activation_self) last hactivation hinnermost
      (by rw [hpc]; decide)
    have hreceiver : selfCaller.word ((selfCaller.word 0).toInt.toNat - 1) = 3000 := by
      have hsp : selfCaller.word 0 = saturate 257 := draws_selfCaller.word 0
      rw [hsp, toInt_saturate (show 257 ≤ 32767 by decide)]
      exact draws_selfCaller.word 256
    rw [hreceiver] at hkept
    exact ⟨last, hactivation, hpc, hkept⟩

end Machine

end Jack

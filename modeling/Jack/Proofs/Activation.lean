import Jack.Proofs.ClassCode
import Jack.Proofs.Loaded
import Jack.Proofs.StatementRun

/-!
# Entering a subroutine

A call leaves the arguments where they are and lets the locals begin above them. The code in front of
the body clears the locals and binds the current object, so that the body begins with the memory in
the state that `entryStore` says (`Entered.standing`).
-/

namespace Jack

open Machine Syntax Compiler
open Token (Kind)

namespace Syntax

variable {k : ClassDeclaration} {d : SubroutineDeclaration} {ds : List Declared}

/-! ## The places of variables -/

/-- The number of arguments of a call, with the object for a method. -/
def SubroutineDeclaration.arity (d : SubroutineDeclaration) : Nat :=
  d.parameters.length + if d.kind = .method then 1 else 0

/-- The number of locals. -/
def SubroutineDeclaration.localCount (d : SubroutineDeclaration) : Nat :=
  (d.locals.flatMap (·.names)).length

theorem index_lt_of_mem_symbols {s : Symbol} (h : s ∈ symbols ds) :
    s.index < ds.countP (·.kind = s.kind) := by
  obtain ⟨e, -, -, -, hk, hi⟩ := mem_symbols h
  rwa [← hk] at hi

/-- Two variables of one kind have different indices. -/
theorem symbols_injective {s s' : Symbol} (h : s ∈ symbols ds) (h' : s' ∈ symbols ds)
    (hk : s.kind = s'.kind) (hi : s.index = s'.index) : s = s' := by
  induction ds using List.reverseRecOn with
  | nil => simp [symbols] at h
  | append_singleton ds e ih =>
    rw [symbols_snoc, List.mem_append, List.mem_singleton] at h h'
    rcases h with h | rfl <;> rcases h' with h' | rfl
    · exact ih h h'
    · have hlt := index_lt_of_mem_symbols h
      rw [hk, hi] at hlt
      exact absurd hlt (Nat.lt_irrefl _)
    · have hlt := index_lt_of_mem_symbols h'
      rw [← hk, ← hi] at hlt
      exact absurd hlt (Nat.lt_irrefl _)
    · rfl

/-- The subroutine declares arguments and locals. -/
theorem kind_of_mem_own {e : Declared} {className : String}
    (h : e ∈ d.implicit className ++ d.declared) : e.kind = .argument ∨ e.kind = .localVar := by
  rcases List.mem_append.1 h with h | h
  · unfold SubroutineDeclaration.implicit at h
    split at h
    · exact .inl (List.mem_singleton.1 h ▸ rfl)
    · exact absurd h List.not_mem_nil
  · exact Environment.kind_of_mem_subroutine h

theorem kind_of_mem_visible {s : Symbol} (h : s ∈ (bindings k d).visible) :
    s ∈ symbols (d.implicit k.name ++ d.declared) ∧ (s.kind = .argument ∨ s.kind = .localVar) ∨
      s ∈ symbols k.declared ∧ (s.kind = .staticVar ∨ s.kind = .field) := by
  rcases List.mem_append.1 h with h | h
  · obtain ⟨e, he, -, -, hk, -⟩ := mem_symbols h
    exact .inl ⟨h, hk ▸ kind_of_mem_own he⟩
  · obtain ⟨e, he, -, -, hk, -⟩ := mem_symbols h
    exact .inr ⟨h, hk ▸ Environment.kind_of_mem_class he⟩

theorem name_of_resolve {b : Bindings} {name : String} {s : Symbol} (h : b.resolve name = some s) :
    s.name = name := by simpa using List.find?_some h

theorem filter_arguments (className : String) :
    ((d.implicit className ++ d.declared).filter (·.kind = .argument)).map (·.name) =
      (if d.kind = .method then [Keyword.thisKeyword.text] else []) ++
        d.parameters.map (·.name) := by
  have hlocals : (d.locals.flatMap (·.declared .localVar)).filter (·.kind = .argument) = [] := by
    rw [List.filter_eq_nil_iff]
    simp only [Variables.declared, List.mem_flatMap, List.mem_map, decide_eq_true_eq]
    rintro _ ⟨v, -, name, -, rfl⟩
    simp
  rw [SubroutineDeclaration.declared, List.filter_append, List.filter_append, hlocals,
    List.append_nil, List.map_append]
  congr 1
  · unfold SubroutineDeclaration.implicit
    split <;> rfl
  · simp [List.filter_map, Function.comp_def, Parameter.declared]

theorem filter_locals (className : String) :
    ((d.implicit className ++ d.declared).filter (·.kind = .localVar)).map (·.name) =
      d.locals.flatMap (·.names) := by
  have himplicit : (d.implicit className).filter (·.kind = .localVar) = [] := by
    unfold SubroutineDeclaration.implicit
    split <;> rfl
  have hparameters : (d.parameters.map Parameter.declared).filter (·.kind = .localVar) = [] := by
    simp [List.filter_map, Function.comp_def, Parameter.declared]
  rw [SubroutineDeclaration.declared, List.filter_append, List.filter_append, himplicit, hparameters]
  simp [List.filter_flatMap, List.map_flatMap, Variables.declared, List.filter_map, Function.comp_def]

theorem countP_arguments (d : SubroutineDeclaration) (className : String) :
    (d.implicit className ++ d.declared).countP (·.kind = .argument) = d.arity := by
  rw [List.countP_eq_length_filter, ← List.length_map (f := Declared.name), filter_arguments,
    List.length_append, List.length_map, Nat.add_comm, SubroutineDeclaration.arity]
  split <;> rfl

theorem countP_locals (d : SubroutineDeclaration) (className : String) :
    (d.implicit className ++ d.declared).countP (·.kind = .localVar) = d.localCount := by
  rw [List.countP_eq_length_filter, ← List.length_map (f := Declared.name), filter_locals,
    SubroutineDeclaration.localCount]

/-- The variables of an activation whose arguments begin at the address. -/
def siteOf (k : ClassDeclaration) (d : SubroutineDeclaration) (arg : Nat) : Site where
  bindings := bindings k d
  arg
  arguments := d.arity
  lcl := arg + d.arity
  locals := d.localCount

theorem sound_siteOf {arg : Nat} (h : 5 < arg) : (siteOf k d arg).Sound where
  injective {name name' s s'} hr hr' hk hi := by
    have hs : s = s' := by
      rcases kind_of_mem_visible (Bindings.mem_visible hr) with ⟨hs, hkind⟩ | ⟨hs, hkind⟩ <;>
        rcases kind_of_mem_visible (Bindings.mem_visible hr') with ⟨hs', hkind'⟩ | ⟨hs', hkind'⟩
      · exact symbols_injective hs hs' hk hi
      · rw [← hk] at hkind'
        rcases hkind with hkind | hkind <;> simp [hkind] at hkind'
      · rw [← hk] at hkind'
        rcases hkind with hkind | hkind <;> simp [hkind] at hkind'
      · exact symbols_injective hs hs' hk hi
    rw [← name_of_resolve hr, ← name_of_resolve hr', hs]
  argument {name s} hr hk := by
    rcases kind_of_mem_visible (Bindings.mem_visible hr) with ⟨hs, -⟩ | ⟨-, hkind⟩
    · have hlt := index_lt_of_mem_symbols hs
      rwa [hk, countP_arguments] at hlt
    · simp [hk] at hkind
  localVar {name s} hr hk := by
    rcases kind_of_mem_visible (Bindings.mem_visible hr) with ⟨hs, -⟩ | ⟨-, hkind⟩
    · have hlt := index_lt_of_mem_symbols hs
      rwa [hk, countP_locals] at hlt
    · simp [hk] at hkind
  receiver hk := by
    have hk : d.kind = .method := hk
    refine ⟨⟨Keyword.thisKeyword.text, k.name, .argument, 0⟩, ?_, rfl, rfl⟩
    simp [siteOf, bindings, Bindings.resolve, SubroutineDeclaration.implicit, hk, symbols]
  low := h
  arguments := Nat.le_refl _

end Syntax

namespace Machine

/-! ## Finding the body -/

/-- A label that stands once in the code stands at one place. -/
theorem eq_of_nodup_labels {code : List Instruction} {name : String} {i j : Nat}
    (h : (labelsOf code).Nodup) (hi : code[i]? = some (.label name))
    (hj : code[j]? = some (.label name)) : j = i := by
  have hpair := List.pairwise_filterMap.1 h
  obtain ⟨hilt, hi⟩ := List.getElem?_eq_some_iff.1 hi
  obtain ⟨hjlt, hj⟩ := List.getElem?_eq_some_iff.1 hj
  have hne : ∀ {a b : Nat} (ha : a < code.length) (hb : b < code.length), a < b →
      code[a] = .label name → code[b] = .label name → False := by
    intro a b ha hb hlt hca hcb
    have hdistinct := List.pairwise_iff_getElem.1 hpair a b ha hb hlt
    rw [hca, hcb] at hdistinct
    exact hdistinct name rfl name rfl rfl
  rcases Nat.lt_trichotomy i j with hlt | heq | hlt
  · exact (hne hilt hjlt hlt hi hj).elim
  · exact heq.symm
  · exact (hne hjlt hilt hlt hj hi).elim

open Program in
/-- The body of the last definition of a name stands where the name leads to. -/
theorem located_of_last {before after : List Definition} {d : Definition}
    (hd : ∀ d' ∈ before ++ d :: after, d'.Whole) (hlast : ∀ d' ∈ after, d'.name ≠ d.name)
    (hnodup : (labelsOf d.body).Nodup) :
    Located (ofInstructions (codeOf (before ++ d :: after))) d.name ((codeOf before).length + 1)
      d.body := by
  suffices h : ∀ first rest, d.body = first ++ rest →
      Located (ofInstructions (codeOf (before ++ d :: after))) d.name
        ((codeOf before).length + 1 + first.length) rest from h [] d.body rfl
  intro first rest
  induction rest generalizing first with
  | nil => exact fun _ => trivial
  | cons i rest ih =>
    intro hbody
    have hi : d.body[first.length]? = some i := by
      rw [hbody, List.getElem?_append_right (Nat.le_refl _)]
      simp
    refine ⟨?_, ?_, ?_⟩
    · have hlt := (List.getElem?_eq_some_iff.1 hi).1
      rw [code_ofInstructions, List.getElem?_toArray, getElem?_body, List.getElem?_append_left hlt, hi]
    · rintro name rfl
      exact label_of_last hd hlast hi fun j hj => eq_of_nodup_labels hnodup hi hj
    · have hnext := ih (first ++ [i]) (by simp [hbody])
      rwa [List.length_append, List.length_singleton, ← Nat.add_assoc] at hnext

/-! ## The state at the entry -/

/-- The subroutine has been entered, with all its arguments on the stack. -/
structure Begins (k : ClassDeclaration) (d : SubroutineDeclaration) (arg : Nat) (m : Machine) :
    Prop where
  program : m.program = .ofInstructions k.code
  function : m.function = k.name ++ "." ++ d.name
  entry : m.program.functions[m.function]? = some m.pc
  sp : m.word 0 = saturate (arg + d.arity)
  lcl : m.word 1 = saturate (arg + d.arity)
  arg : m.word 2 = saturate arg

/-- The current object of a subroutine: a new one for a constructor, the first argument for a method,
and for a function the one that there was. -/
def objectOf (kind : Subroutine.Kind) (arg : Nat) (m : Machine) : Word :=
  match kind with
  | .constructor => saturate m.heapEnd
  | .method => m.word arg
  | .function => m.word 3

/-- The store with which the body of a subroutine begins; there is nothing in the locals. -/
def entryStore (k : ClassDeclaration) (d : SubroutineDeclaration) (arg : Nat) (m : Machine) :
    Store :=
  { this := objectOf d.kind arg m
    values := fun name => match (bindings k d).resolve name with
      | some s => if s.kind = .localVar then 0 else m.variableWord (siteOf k d arg) s
      | none => 0
    heap := m.word }

variable {k : ClassDeclaration} {d : SubroutineDeclaration} {arg : Nat} {m m₁ m' : Machine}

theorem begins_of_enterFunction {m₀ : Machine} {returnAddress : Option Nat}
    (hp : m₀.program = .ofInstructions k.code) (hsp : m₀.word 0 = saturate (arg + d.arity))
    (hle : arg + d.arity ≤ 2048) (hlow : 5 < arg)
    (h : (enterFunction (k.name ++ "." ++ d.name) d.arity returnAddress).run m₀ = .ok () m) :
    Begins k d arg m := by
  cases hf : m₀.program.functions[k.name ++ "." ++ d.name]? with
  | none =>
    rw [run_enterFunction_of_none _ _ hf] at h
    simp at h
  | some entry =>
    rw [run_enterFunction _ _ hf] at h
    simp only [EStateM.Result.ok.injEq, true_and] at h
    subst h
    have hword : ∀ a, a ≠ 1 → a ≠ 2 →
        (m₀.entered (k.name ++ "." ++ d.name) d.arity returnAddress entry).word a = m₀.word a := by
      intro a h1 h2
      refine (word_put_of_lt _ _ (by omega)).trans ?_
      rw [if_neg (Ne.symm h1), word_put_of_lt _ _ (by omega), if_neg (Ne.symm h2)]
    refine ⟨hp, rfl, hf, ?_, ?_, ?_⟩
    · rw [hword 0 (by decide) (by decide), hsp]
    · exact (word_put_of_lt _ _ (by omega)).trans ((if_pos rfl).trans hsp)
    · refine (word_put_of_lt _ _ (by omega)).trans ((if_neg (by decide)).trans ?_)
      rw [word_put_of_lt _ _ (by omega), if_pos rfl, hsp, saturate_sub (by omega) (by omega)]
      congr 1
      omega

/-- The locals are cleared. -/
theorem Begins.walk_function (h : Begins k d arg m) (hlow : 5 < arg)
    (hfit : arg + d.arity + d.localCount ≤ 2048)
    (hi : m.instruction? = some (.function (k.name ++ "." ++ d.name) d.localCount)) :
    ∃ m', Walk 1 m m' ∧ m' = { m with ram := m'.ram, pc := m.pc + 1 } ∧
      ∀ a, m'.word a = if a = 0 then saturate (arg + d.arity + d.localCount)
        else if arg + d.arity ≤ a ∧ a < arg + d.arity + d.localCount then 0 else m.word a := by
  have hstep : step.run m = .ok none (m.next.cleared (arg + d.arity) d.localCount) := by
    rw [run_step hi]
    simp only [perform, run_bind, run_pushLocals (m := m.next) h.sp
      (show arg + d.arity + d.localCount ≤ 32767 by omega), run_pure]
  refine ⟨_, .single (by simp [hi]) hstep, ?_, fun a => ?_⟩
  · rw [cleared_eq]
    rfl
  · exact word_cleared (m := m.next) a (by omega) h.sp (by omega)

/-! ## The object -/

/-- Nothing has changed but the object, the end of the heap, and what is above the stack. -/
structure BindsObject (m : Machine) (sp length : Nat) (this : Word) (m' : Machine) : Prop where
  same : m' = { m with ram := m'.ram, pc := m'.pc, heapEnd := m'.heapEnd }
  pc : m'.pc = m.pc + length
  stack : m'.word 0 = saturate sp
  this : m'.word 3 = this
  cells : ∀ a, a ≠ 0 → a ≠ 3 → a ≠ 4 → a < sp ∨ 2048 ≤ a → m'.word a = m.word a

variable {sp n : Nat}

/-- The object on top of the stack becomes the current one. -/
theorem bindsObject_of_delivers {length : Nat} {this : Word} (hlow : 4 < sp) (hh : Height m₁ (sp + 1))
    (hi : m₁.instruction? = some (.pop .pointer 0)) (htop : m₁.word sp = this)
    (hsame : m₁ = { m with ram := m₁.ram, pc := m₁.pc, heapEnd := m₁.heapEnd })
    (hpc : m₁.pc = m.pc + length)
    (hcells : ∀ a, a ≠ 0 → a ≠ 4 → a < sp ∨ 2048 ≤ a → m₁.word a = m.word a) :
    ∃ m', Walk 1 m₁ m' ∧ BindsObject m sp (length + 1) this m' := by
  obtain ⟨m', hw, hm'⟩ := walk_pop_of_fixed hh (by omega) hi
    (show fixed? .pointer = some pointerBase from rfl) (by decide)
  refine ⟨m', hw, ?_, ?_, ?_, ?_, fun a h0 h3 h4 ha => ?_⟩
  · rw [hm'.control, hsame]
  · rw [hm'.pc, hpc, Nat.add_assoc]
  · rw [hm'.word, if_neg (by decide), if_pos rfl]
  · rw [hm'.word, if_pos (by decide), htop]
  · rw [hm'.word, if_neg (show a ≠ pointerBase + 0 from h3), if_neg h0, hcells a h0 h4 ha]

theorem bindsObject_method {receiver : Word} (h : Height m sp)
    (hcode : Placed m.program m.pc (bindObject n .method)) (hroom : ∀ n, Room n m)
    (harg : m.word 2 = saturate arg) (hlt : arg < sp) (hrec : m.word arg = receiver) :
    ∃ m', Walk 2 m m' ∧ BindsObject m sp 2 receiver m' := by
  have hlow := h.low
  have hhigh := h.high
  obtain ⟨hpush, hpop, -⟩ := hcode
  have hread : (readElement .arguments 0).run m.next = .ok receiver m.next := by
    have harg' : m.next.word Register.arg.address = saturate arg := harg
    rw [run_readElement (run_locate_of_base rfl harg' (by omega)) (by omega)]
    exact congrArg (EStateM.Result.ok · m.next) hrec
  obtain ⟨m₁, hw₁, hd⟩ := attempt_push h hpush hread (hroom 1)
  have hi₁ : m₁.instruction? = some (.pop .pointer 0) := by
    rw [instruction?, hd.keeps.program, hd.pc]
    exact hpop
  obtain ⟨m₂, hw₂, hb⟩ := bindsObject_of_delivers hlow hd.height hi₁ hd.top
    (by rw [hd.keeps.control]) hd.pc hd.keeps.cells
  exact ⟨m₂, hw₁.trans hw₂, hb⟩

theorem bindsObject_constructor (h : Height m sp)
    (hcode : Placed m.program m.pc (bindObject n .constructor)) (hroom : ∀ n, Room n m)
    (halloc : m.heapEnd + n < ramSize) :
    ∃ m', Walk 3 m m' ∧ BindsObject m sp 3 (saturate m.heapEnd) m' := by
  have hlow := h.low
  have hhigh := h.high
  obtain ⟨hpush, hcall, hpop, -⟩ := hcode
  have hread : (readElement .constant n).run m.next = .ok (saturate n) m.next := rfl
  obtain ⟨m₁, hw₁, hd⟩ := attempt_push h hpush hread (hroom 1)
  have hi₁ : m₁.instruction? = some Routine.memoryAlloc.call := by
    rw [instruction?, hd.keeps.program, hd.pc]
    exact hcall
  have hheap : m₁.next.heapEnd = m.heapEnd := by
    rw [hd.keeps.control]
    rfl
  have hreserve : (runRoutine .memoryAlloc
      ((List.range' sp Routine.memoryAlloc.arity).map m₁.word)).run m₁.next =
        .ok (some (saturate m.heapEnd)) { m₁.next with heapEnd := m.heapEnd + n } := by
    have hrun := run_reserve (m := m₁.next) (n := n) (by rw [hheap]; exact halloc)
    have htop : (List.range' sp Routine.memoryAlloc.arity).map m₁.word = [saturate n] := by
      simp [Routine.arity, hd.top]
    rw [htop, runRoutine, ← hheap]
    simp only [map_eq_pure_bind, run_bind, hrun, run_pure]
  have hlt : sp + 1 ≤ 2048 := hd.height.high
  have hstep := run_step_routine hi₁ hd.height.stack
    (show sp + Routine.memoryAlloc.arity ≤ 32767 by simp only [Routine.arity]; omega)
    (by omega) (by omega) hreserve
  set m₂ := ({ m₁.next with heapEnd := m.heapEnd + n } : Machine).pushed sp (saturate m.heapEnd)
    with hm₂
  have hword : ∀ a, m₂.word a = if a = 0 then saturate (sp + 1)
      else if a = sp then saturate m.heapEnd else m₁.word a := fun a => word_pushed a _ (by omega)
  have hi₂ : m₂.instruction? = some (.pop .pointer 0) := by
    have hpc : m₂.pc = m.pc + 1 + 1 := congrArg (· + 1) hd.pc
    have hprogram : m₂.program = m.program := hd.keeps.program
    rw [instruction?, hprogram, hpc]
    exact hpop
  have hsame : m₂ = { m with ram := m₂.ram, pc := m₂.pc, heapEnd := m₂.heapEnd } := by
    rw [hm₂, hd.keeps.control]
    rfl
  have hcells : ∀ a, a ≠ 0 → a ≠ 4 → a < sp ∨ 2048 ≤ a → m₂.word a = m.word a := by
    intro a h0 h4 ha
    rw [hword, if_neg h0, if_neg (by omega), hd.keeps.cells a h0 h4 ha]
  obtain ⟨m₃, hw₃, hb⟩ := bindsObject_of_delivers hlow ⟨by rw [hword, if_pos rfl], by omega, by omega⟩
    hi₂ (by rw [hword, if_neg (by omega), if_pos rfl]) hsame
    (show m₂.pc = m.pc + 2 from congrArg (· + 1) hd.pc) hcells
  exact ⟨m₃, (hw₁.trans (.single (by simp [hi₁, Routine.call]) hstep)).trans hw₃, hb⟩

theorem exists_bindsObject {kind : Subroutine.Kind} (h : Height m sp)
    (hcode : Placed m.program m.pc (bindObject n kind)) (hroom : ∀ n, Room n m)
    (halloc : kind = .constructor → m.heapEnd + n < ramSize)
    (harg : kind = .method → m.word 2 = saturate arg ∧ arg < sp) :
    ∃ j m', Walk j m m' ∧
      BindsObject m sp (bindObject n kind).length (objectOf kind arg m) m' := by
  cases kind with
  | constructor =>
    obtain ⟨m', hw, hb⟩ := bindsObject_constructor h hcode hroom (halloc rfl)
    exact ⟨3, m', hw, hb⟩
  | method =>
    obtain ⟨harg, hlt⟩ := harg rfl
    obtain ⟨m', hw, hb⟩ := bindsObject_method h hcode hroom harg hlt rfl
    exact ⟨2, m', hw, hb⟩
  | function => exact ⟨0, m, .refl m, rfl, rfl, h.stack, rfl, fun _ _ _ _ _ => rfl⟩

/-- The machine has just entered the subroutine, and there is all the room that it takes. -/
structure Entered (k : ClassDeclaration) (d : SubroutineDeclaration) (arg : Nat) (m : Machine) :
    Prop where
  mem : d ∈ k.subroutines
  /-- No other subroutine has the name. -/
  once : k.subroutines.countP (·.name = d.name) = 1
  begins : Begins k d arg m
  low : stackBase ≤ arg
  /-- The stack stays below the heap. -/
  fits : arg + d.arity + d.localCount ≤ heapBase
  room : ∀ n, Room n m
  /-- The new object of a constructor has its place in the memory. -/
  allocates : d.kind = .constructor →
    m.heapEnd + k.declared.countP (·.kind = .field) < ramSize

/-- The subroutine is found under its name, and its code is behind. -/
theorem Entered.exists_body (h : Entered k d arg m) : ∃ i w,
    m.instruction? = some (.function (k.name ++ "." ++ d.name) d.localCount) ∧
      Located m.program m.function (m.pc + 1) (d.definition k i w).body := by
  obtain ⟨ds, ds', hsplit⟩ := List.append_of_mem h.mem
  have honce := h.once
  rw [hsplit, List.countP_append, List.countP_cons_of_pos (by simp)] at honce
  have hlater : ∀ d' ∈ ds', d'.name ≠ d.name := by
    have hzero : ds'.countP (·.name = d.name) = 0 := by omega
    simpa [List.countP_eq_zero] using hzero
  obtain ⟨i, w, hdefinitions⟩ := @definitionsFrom_split k d 0 0 ds ds'
  rw [← hsplit] at hdefinitions
  set after := definitionsFrom k (i + d.body.ifs) (w + d.body.whiles) ds' with hafter
  have hlast : ∀ e ∈ after, e.name ≠ (d.definition k i w).name := by
    intro e he heq
    obtain ⟨d', hd', j, v, rfl⟩ := exists_subroutine_of_mem he
    exact hlater d' hd' (String.append_right_inj _ |>.1 heq)
  have hwhole : ∀ e ∈ definitionsFrom k 0 0 ds ++ d.definition k i w :: after, e.Whole :=
    hdefinitions ▸ k.whole
  have hprogram : m.program = .ofInstructions
      (codeOf (definitionsFrom k 0 0 ds ++ d.definition k i w :: after)) := by
    rw [h.begins.program, ← k.codeOf_definitions, ClassDeclaration.definitions, hdefinitions]
  have hentry := h.begins.entry
  have hfunction : m.function = (d.definition k i w).name := h.begins.function
  rw [hfunction, hprogram, Program.functions_of_last hwhole hlast, Option.some.injEq] at hentry
  refine ⟨i, w, ?_, ?_⟩
  · rw [instruction?_of_program hprogram, ← hentry, Program.getElem?_entry]
    rfl
  · rw [hprogram, hfunction, ← hentry]
    exact located_of_last hwhole hlast (d.labelled k i w).nodup

/-- The locals have been cleared and the object is bound; nothing else has changed in the cells of the
activation and in the heap. -/
structure Prepared (k : ClassDeclaration) (d : SubroutineDeclaration) (arg : Nat) (m m' : Machine) :
    Prop where
  same : m' = { m with ram := m'.ram, pc := m'.pc, heapEnd := m'.heapEnd }
  stack : m'.word 0 = saturate (arg + d.arity + d.localCount)
  this : m'.word 3 = objectOf d.kind arg m
  cells : ∀ a, a ≠ 0 → a ≠ 3 → a ≠ 4 → a < arg + d.arity + d.localCount ∨ 2048 ≤ a →
    m'.word a = if arg + d.arity ≤ a ∧ a < arg + d.arity + d.localCount then 0 else m.word a

/-- The function instruction and the code that binds the object lead up to the body. -/
theorem Entered.exists_prepared (h : Entered k d arg m) : ∃ i w j m', Walk j m m' ∧
    Prepared k d arg m m' ∧ Located m'.program m'.function m'.pc (d.body.code (bindings k d) i w) := by
  have hlow : 5 < arg := Nat.lt_of_lt_of_le (by decide) h.low
  have hfit : arg + d.arity + d.localCount ≤ 2048 := h.fits
  obtain ⟨i, w, hi, hbody⟩ := h.exists_body
  obtain ⟨hobject, hcode⟩ := located_append.1 hbody
  obtain ⟨m₁, hw₁, hsame, hword⟩ := h.begins.walk_function hlow hfit hi
  have hcell : ∀ a, a ≠ 0 → ¬ (arg + d.arity ≤ a ∧ a < arg + d.arity + d.localCount) →
      m₁.word a = m.word a := by
    intro a h0 hout
    rw [hword, if_neg h0, if_neg hout]
  have harity : d.kind = .method → 1 ≤ d.arity := by
    intro hk
    simp [SubroutineDeclaration.arity, hk]
  have hheight : Height m₁ (arg + d.arity + d.localCount) :=
    ⟨by rw [hword, if_pos rfl], by omega, hfit⟩
  have hplaced : Placed m₁.program m₁.pc
      (bindObject (k.declared.countP (·.kind = .field)) d.kind) := by
    rw [hsame]
    exact hobject.placed
  have hheap : m₁.heapEnd = m.heapEnd := by rw [hsame]
  have harg : d.kind = .method → m₁.word 2 = saturate arg ∧
      arg < arg + d.arity + d.localCount := by
    intro hk
    have := harity hk
    exact ⟨by rw [hcell 2 (by omega) (by omega), h.begins.arg], by omega⟩
  obtain ⟨j, m', hw, hb⟩ := exists_bindsObject hheight hplaced
    (fun n => (h.room (1 + n)).of_walk hw₁) (by rw [hheap]; exact h.allocates) harg
  have hthis : objectOf d.kind arg m₁ = objectOf d.kind arg m := by
    cases hk : d.kind with
    | constructor => simp only [objectOf, hheap]
    | method =>
      have := harity hk
      exact hcell arg (by omega) (by omega)
    | function => exact hcell 3 (by omega) (by omega)
  have hsame' : m' = { m with ram := m'.ram, pc := m'.pc, heapEnd := m'.heapEnd } := by
    rw [hb.same, hsame]
  refine ⟨i, w, 1 + j, m', hw₁.trans hw, ⟨hsame', hb.stack, hb.this.trans hthis,
    fun a h0 h3 h4 ha => by rw [hb.cells a h0 h3 h4 ha, hword, if_neg h0]⟩, ?_⟩
  rw [show m'.program = m.program by rw [hsame'], show m'.function = m.function by rw [hsame'],
    hb.pc, show m₁.pc = m.pc + 1 by rw [hsame]]
  exact hcode

/-- What the machine then has in its memory is what the entry store says. -/
theorem Prepared.agrees (h : Prepared k d arg m m') (hb : Begins k d arg m) (hlow : 5 < arg)
    (hfit : arg + d.arity + d.localCount ≤ 2048) :
    Agrees (siteOf k d arg) (entryStore k d arg m) m' (arg + d.arity + d.localCount) := by
  have hs : (siteOf k d arg).Sound := sound_siteOf hlow
  have hlcl : (siteOf k d arg).lcl = arg + d.arity := rfl
  have harg : (siteOf k d arg).arg = arg := rfl
  refine ⟨?_, ?_, h.this, Nat.le_refl _, fun a ha hlt => ?_, fun {name s} hr hk => ?_, fun hk => ?_⟩
  · rw [h.cells 1 (by omega) (by omega) (by omega) (by omega), if_neg (by omega), hb.lcl, hlcl]
  · rw [h.cells 2 (by omega) (by omega) (by omega) (by omega), if_neg (by omega), hb.arg, harg]
  · rw [h.cells a (by omega) (by omega) (by omega) (.inr ha), if_neg (by omega)]
    rfl
  · have hvalue : (entryStore k d arg m).values name =
        if s.kind = .localVar then 0 else m.variableWord (siteOf k d arg) s := by
      have hr : (bindings k d).resolve name = some s := hr
      simp only [entryStore, hr]
    rw [hvalue]
    cases hkind : s.kind with
    | field => exact absurd hkind hk
    | localVar =>
      have hlt : s.index < d.localCount := hs.localVar hr hkind
      simp only [variableWord, hkind, if_true]
      rw [hlcl, h.cells _ (by omega) (by omega) (by omega) (by omega), if_pos (by omega)]
    | argument =>
      have hlt : s.index < d.arity := hs.argument hr hkind
      simp only [variableWord, hkind, reduceCtorEq, if_false]
      rw [harg, h.cells _ (by omega) (by omega) (by omega) (by omega), if_neg (by omega)]
    | staticVar =>
      have hstatics : m'.statics = m.statics := by rw [h.same]
      have hclass : m'.className = m.className := by rw [className, h.same, className]
      simp only [variableWord, hkind, reduceCtorEq, if_false, hclass, hstatics]
  · have hk : d.kind = .method := hk
    obtain ⟨s, hr, hkind, hindex⟩ := hs.receiver hk
    have hr : (bindings k d).resolve Keyword.thisKeyword.text = some s := hr
    simp only [entryStore, hr, hkind, reduceCtorEq, if_false, variableWord, hindex, objectOf, hk]
    rfl

/-- The body of a subroutine begins in its entry store. -/
theorem Entered.standing (h : Entered k d arg m) : ∃ i w j m', Walk j m m' ∧
    m' = { m with ram := m'.ram, pc := m'.pc, heapEnd := m'.heapEnd } ∧
      Standing (siteOf k d arg) (entryStore k d arg m) m' (arg + d.arity + d.localCount)
        (d.body.code (bindings k d) i w) := by
  have hlow : 5 < arg := Nat.lt_of_lt_of_le (by decide) h.low
  obtain ⟨i, w, j, m', hw, hm', hlocated⟩ := h.exists_prepared
  exact ⟨i, w, j, m', hw, hm'.same, hm'.agrees h.begins hlow h.fits,
    ⟨hm'.stack, by omega, h.fits⟩, hlocated, fun n => (h.room (j + n)).of_walk hw⟩

end Machine

end Jack

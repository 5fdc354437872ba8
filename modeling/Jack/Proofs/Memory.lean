import Jack.Proofs.ExpressionRun

/-!
# The store in the memory

The variables of an activation have their places in the memory: the arguments and locals in the
stack, the fields in the heap, the statics beside it. When the memory holds what the store says
(`Agrees`), the code of an expression sees what the expression sees (`Agrees.shows`), and assigning
to a variable or to an element does the same to both (`attempt_write`, `attempt_storeElement`).
-/

namespace Jack

open Machine Syntax
open Token (Kind)

namespace Machine

/-! ## Memory and store -/

/-- The place of an activation in the memory: where its variables begin, and how many there are. -/
structure Site where
  bindings : Bindings
  arg : Nat
  arguments : Nat
  lcl : Nat
  locals : Nat

/-- No two names mean one place, and a method's object is its first argument. -/
structure Site.Sound (site : Site) : Prop where
  injective : ∀ {name name' s s'}, site.bindings.resolve name = some s →
    site.bindings.resolve name' = some s' → s.kind = s'.kind → s.index = s'.index → name = name'
  argument : ∀ {name s}, site.bindings.resolve name = some s → s.kind = .argument →
    s.index < site.arguments
  localVar : ∀ {name s}, site.bindings.resolve name = some s → s.kind = .localVar →
    s.index < site.locals
  receiver : site.bindings.kind = .method → ∃ s,
    site.bindings.resolve Keyword.thisKeyword.text = some s ∧ s.kind = .argument ∧ s.index = 0
  low : 5 < site.arg
  arguments : site.arg + site.arguments ≤ site.lcl

/-- What a variable holds that is no field. -/
def variableWord (m : Machine) (site : Site) (s : Symbol) : Word :=
  match s.kind with
  | .argument => m.word (site.arg + s.index)
  | .localVar => m.word (site.lcl + s.index)
  | _ => m.statics.getD (m.className, s.index) 0

/-- The memory holds what the store says, and the variables lie below `sp`. -/
structure Agrees (site : Site) (σ : Store) (m : Machine) (sp : Nat) : Prop where
  lcl : m.word 1 = saturate site.lcl
  arg : m.word 2 = saturate site.arg
  this : m.word 3 = σ.this
  above : site.lcl + site.locals ≤ sp
  heap : ∀ a, 2048 ≤ a → a < 32768 → m.word a = σ.heap a
  values : ∀ {name s}, site.bindings.resolve name = some s → s.kind ≠ .field →
    m.variableWord site s = σ.values name
  receiver : site.bindings.kind = .method → σ.values Keyword.thisKeyword.text = σ.this

variable {site : Site} {σ σ' : Store} {m m₁ m' : Machine} {sp : Nat}

theorem Extends.variableWord_eq (h : Extends m sp m') (hs : site.Sound) {name : String} {s : Symbol}
    (hr : site.bindings.resolve name = some s) (ha : site.lcl + site.locals ≤ sp) :
    m'.variableWord site s = m.variableWord site s := by
  have hlow := hs.low
  have hargs := hs.arguments
  cases hk : s.kind with
  | argument =>
    have := hs.argument hr hk
    simp only [variableWord, hk]
    exact h.cells _ (by omega) (by omega) (.inl (by omega))
  | localVar =>
    have := hs.localVar hr hk
    simp only [variableWord, hk]
    exact h.cells _ (by omega) (by omega) (.inl (by omega))
  | _ => simp only [variableWord, hk, h.statics, h.className]

/-- What an expression does, the store need not know of. -/
theorem Agrees.onward (h : Agrees site σ m sp) (hs : site.Sound) (he : Extends m sp m') :
    Agrees site σ m' sp := by
  have habove := h.above
  have hlow := hs.low
  have hargs := hs.arguments
  have hcell : ∀ a, a ≠ 0 → a ≠ 4 → a < sp ∨ 2048 ≤ a → m'.word a = m.word a := he.cells
  refine ⟨?_, ?_, ?_, habove, fun a ha hlt => ?_, fun {name s} hr hk => ?_, h.receiver⟩
  · rw [hcell 1 (by omega) (by omega) (.inl (by omega)), h.lcl]
  · rw [hcell 2 (by omega) (by omega) (.inl (by omega)), h.arg]
  · rw [hcell 3 (by omega) (by omega) (.inl (by omega)), h.this]
  · rw [hcell a (by omega) (by omega) (.inr ha), h.heap a ha hlt]
  · rw [he.variableWord_eq hs hr habove, h.values hr hk]

theorem load_eq_ok {address : Int} {value : Word} : σ.load address = .ok value ↔
    2048 ≤ address ∧ address < 32768 ∧ σ.heap address.toNat = value := by
  simp only [Store.load, Store.cell]
  split
  · rename_i h
    simp [bind, Except.bind, pure, Except.pure, h]
  · rename_i h
    simp only [bind, Except.bind, reduceCtorEq, false_iff]
    exact fun h' => h ⟨h'.1, h'.2.1⟩

theorem load_ne_divisionByZero (σ : Store) (address : Int) :
    σ.load address ≠ .error .divisionByZero := by
  simp only [Store.load, Store.cell]
  split <;> simp [bind, Except.bind, pure, Except.pure]

/-- The object is at the address that a field of it is in the heap by. -/
theorem exists_this {index : Nat} (h : 2048 ≤ σ.field index) :
    ∃ n ≤ 32767, σ.this = saturate n ∧ σ.field index = n + index := by
  simp only [Store.field] at h ⊢
  split at h
  · omega
  · rename_i hneg
    obtain ⟨n, hle, hn⟩ := exists_saturate (Int16.not_lt.1 hneg)
    refine ⟨n, hle, hn, ?_⟩
    rw [if_neg hneg, hn, toInt_saturate hle]

theorem Agrees.yields {name : String} {s : Symbol} {value : Word} (h : Agrees site σ m sp)
    (hs : site.Sound) (hsp : sp ≤ 2048) (hr : site.bindings.resolve name = some s)
    (hv : σ.read site.bindings name = .ok value) : Yields m sp s.kind.segment s.index value := by
  intro m' he
  have hargs := hs.arguments
  have habove := h.above
  have h' := h.onward hs he
  simp only [Store.read, hr] at hv
  by_cases hk : s.kind = .field
  · rw [if_pos hk] at hv
    obtain ⟨hlo, hhi, hcell⟩ := load_eq_ok.1 hv
    obtain ⟨n, hle, hthis, haddr⟩ := exists_this hlo
    have hbase : m'.word Register.this.address = saturate n := h'.this.trans hthis
    rw [hk, Symbol.Kind.segment, run_readElement (run_locate_of_base rfl hbase hle) (by omega),
      h'.heap _ (by omega) (by omega), ← hcell, haddr]
    rfl
  · rw [if_neg hk, Except.ok.injEq] at hv
    have hword := h'.values hr hk
    rw [hv] at hword
    cases hkind : s.kind with
    | field => exact absurd hkind hk
    | argument =>
      have := hs.argument hr hkind
      simp only [variableWord, hkind] at hword
      rw [Symbol.Kind.segment, run_readElement (run_locate_of_base rfl h'.arg (by omega)) (by omega),
        hword]
    | localVar =>
      have := hs.localVar hr hkind
      simp only [variableWord, hkind] at hword
      rw [Symbol.Kind.segment, run_readElement (run_locate_of_base rfl h'.lcl (by omega)) (by omega),
        hword]
    | staticVar =>
      simp only [variableWord, hkind] at hword
      rw [Symbol.Kind.segment, ← hword]
      rfl

/-- The code of an expression finds in the memory what the expression finds in the store. -/
theorem Agrees.shows {names : List String} (h : Agrees site σ m sp) (hs : site.Sound)
    (hsp : sp ≤ 2048) (hd : ∀ name ∈ names, site.bindings.Declares name) (this : Bool) :
    Shows site.bindings (σ.view site.bindings) m sp names this where
  named name hn := by
    obtain ⟨s, hr⟩ := Option.isSome_iff_exists.1 (hd name hn)
    exact ⟨s, hr, fun value hv => h.yields hs hsp hr hv⟩
  this _ segment index hp := by
    simp only [Bindings.this] at hp
    split at hp
    · rename_i hk
      obtain ⟨s, hr, hkind, hindex⟩ := hs.receiver hk
      have hread : σ.read site.bindings Keyword.thisKeyword.text = .ok σ.this := by
        simp [Store.read, hr, hkind, h.receiver hk]
      have hy := h.yields hs hsp hr hread
      rw [hkind, hindex] at hy
      cases hp
      exact hy
    · cases hp
      intro m' he
      rw [run_readElement (run_locate_of_fixed rfl) (by decide)]
      exact congrArg (EStateM.Result.ok · m') (h.onward hs he).this
  element address value hv := by
    obtain ⟨hlo, hhi, hcell⟩ := load_eq_ok.1 hv
    exact ⟨hlo, by rw [h.heap _ (by omega) (by omega), hcell]⟩
  stops name := by
    change σ.read site.bindings name ≠ _
    unfold Store.read
    split
    · simp
    · split
      · exact load_ne_divisionByZero σ _
      · simp
  stops' address := load_ne_divisionByZero σ _

/-! ## Assignments -/

/-- The machine has come to the address, and its memory is that of the store. -/
structure Passed (site : Site) (m : Machine) (sp pc : Nat) (σ : Store) (m' : Machine) : Prop where
  same : m' = { m with ram := m'.ram, statics := m'.statics, pc := m'.pc }
  pc : m'.pc = pc
  height : Height m' sp
  agrees : Agrees site σ m' sp

theorem store_eq_ok {address : Int} {value : Word} : σ.store address value = .ok σ' ↔
    2048 ≤ address ∧ address < 32768 ∧
      σ' = { σ with heap := fun a => if a = address.toNat then value else σ.heap a } := by
  simp only [Store.store, Store.cell]
  split
  · rename_i h
    simp [bind, Except.bind, pure, Except.pure, h, eq_comm]
  · rename_i h
    simp only [bind, Except.bind, reduceCtorEq, false_iff]
    exact fun h' => h ⟨h'.1, h'.2.1⟩

theorem store_ne_divisionByZero (σ : Store) (address : Int) (value : Word) :
    σ.store address value ≠ .error .divisionByZero := by
  simp only [Store.store, Store.cell]
  split <;> simp [bind, Except.bind, pure, Except.pure]

/-- A cell of the heap is changed, and some below it that hold no variable. -/
theorem Agrees.stored {place : Nat} {value : Word} (h : Agrees site σ m sp) (hs : site.Sound)
    (hsp : sp ≤ 2048) (hc : m' = { m with ram := m'.ram, pc := m'.pc })
    (hcells : ∀ a, a ≠ 0 → a ≠ 4 → a ≠ 5 → a < sp ∨ 2048 ≤ a →
      m'.word a = if a = place then value else m.word a) (hp : 2048 ≤ place) :
    Agrees site { σ with heap := fun a => if a = place then value else σ.heap a } m' sp := by
  have habove := h.above
  have hlow := hs.low
  have hargs := hs.arguments
  have hbelow : ∀ a, a ≠ 0 → a ≠ 4 → a ≠ 5 → a < sp → m'.word a = m.word a := by
    intro a h0 h4 h5 ha
    rw [hcells a h0 h4 h5 (.inl ha), if_neg (by omega)]
  refine ⟨?_, ?_, ?_, habove, fun a ha hlt => ?_, fun {name s} hr hk => ?_, h.receiver⟩
  · rw [hbelow 1 (by omega) (by omega) (by omega) (by omega), h.lcl]
  · rw [hbelow 2 (by omega) (by omega) (by omega) (by omega), h.arg]
  · rw [hbelow 3 (by omega) (by omega) (by omega) (by omega), h.this]
  · rw [hcells a (by omega) (by omega) (by omega) (.inr ha), h.heap a ha hlt]
  · rw [← h.values hr hk]
    cases hkind : s.kind with
    | field => exact absurd hkind hk
    | argument =>
      have := hs.argument hr hkind
      simp only [variableWord, hkind]
      exact hbelow _ (by omega) (by omega) (by omega) (by omega)
    | localVar =>
      have := hs.localVar hr hkind
      simp only [variableWord, hkind]
      exact hbelow _ (by omega) (by omega) (by omega) (by omega)
    | staticVar =>
      simp only [variableWord, hkind, className]
      rw [hc]

/-- The cell of a variable in the stack. -/
def Site.place? (site : Site) (s : Symbol) : Option Nat :=
  match s.kind with
  | .argument => some (site.arg + s.index)
  | .localVar => some (site.lcl + s.index)
  | _ => none

theorem Site.Sound.place_bounds (hs : site.Sound) {name : String} {s : Symbol} {place : Nat}
    (hr : site.bindings.resolve name = some s) (hp : site.place? s = some place) :
    5 < place ∧ place < site.lcl + site.locals := by
  have hlow := hs.low
  have hargs := hs.arguments
  cases hkind : s.kind <;> simp only [place?, hkind, Option.some.injEq, reduceCtorEq] at hp
  · have := hs.argument hr hkind
    omega
  · have := hs.localVar hr hkind
    omega

/-- Two variables in one cell of the stack are one variable. -/
theorem Site.Sound.eq_of_place (hs : site.Sound) {name name' : String} {s s' : Symbol} {place : Nat}
    (hr : site.bindings.resolve name = some s) (hr' : site.bindings.resolve name' = some s')
    (hp : site.place? s = some place) (hp' : site.place? s' = some place) : name = name' := by
  have hargs := hs.arguments
  cases hkind : s.kind <;> simp only [place?, hkind, Option.some.injEq, reduceCtorEq] at hp <;>
    cases hkind' : s'.kind <;> simp only [place?, hkind', Option.some.injEq, reduceCtorEq] at hp'
  · exact hs.injective hr hr' (hkind.trans hkind'.symm) (by omega)
  · have := hs.argument hr hkind
    omega
  · have := hs.argument hr' hkind'
    omega
  · exact hs.injective hr hr' (hkind.trans hkind'.symm) (by omega)

theorem variableWord_of_place {s : Symbol} {place : Nat} (hp : site.place? s = some place) :
    m.variableWord site s = m.word place := by
  cases hkind : s.kind <;> simp only [Site.place?, hkind, Option.some.injEq, reduceCtorEq] at hp <;>
    simp only [variableWord, hkind, hp]

theorem variableWord_of_none {s : Symbol} (hp : site.place? s = none) :
    m.variableWord site s = m.statics.getD (m.className, s.index) 0 := by
  cases hkind : s.kind <;> simp only [Site.place?, hkind, reduceCtorEq] at hp <;>
    simp only [variableWord, hkind]

/-- Assigning to a variable changes the word of that variable and no other's. -/
theorem Agrees.assigned {name : String} {s : Symbol} {value : Word} (h : Agrees site σ m sp)
    (hr : site.bindings.resolve name = some s)
    (hthis : name ≠ Keyword.thisKeyword.text)
    (hcells : ∀ a, 0 < a → a ≤ 3 ∨ 2048 ≤ a → m'.word a = m.word a)
    (hword : m'.variableWord site s = value)
    (hothers : ∀ name' s', site.bindings.resolve name' = some s' → name' ≠ name →
      s'.kind ≠ .field → m'.variableWord site s' = m.variableWord site s') :
    Agrees site { σ with values := fun x => if x = name then value else σ.values x } m' sp := by
  refine ⟨?_, ?_, ?_, h.above, fun a ha hlt => ?_, fun {name' s'} hr' hk => ?_, fun hk => ?_⟩
  · rw [hcells 1 (by omega) (by omega), h.lcl]
  · rw [hcells 2 (by omega) (by omega), h.arg]
  · rw [hcells 3 (by omega) (by omega), h.this]
  · rw [hcells a (by omega) (by omega), h.heap a ha hlt]
  · by_cases hname : name' = name
    · subst hname
      obtain rfl : s' = s := Option.some.inj (hr'.symm.trans hr)
      rw [hword]
      simp
    · rw [hothers name' s' hr' hname hk, h.values hr' hk]
      simp [hname]
  · simp only [if_neg (Ne.symm hthis)]
    exact h.receiver hk

section Assignments

variable {name : String} {value : Word}

/-- The value on top goes to the cell of a variable in the stack. -/
theorem attempt_write_place {s : Symbol} {place : Nat} (h : Agrees site σ m sp) (hs : site.Sound)
    (hh : Height m (sp + 1)) (hr : site.bindings.resolve name = some s)
    (hthis : name ≠ Keyword.thisKeyword.text) (hi : m.instruction? = some s.pop)
    (hp : site.place? s = some place) :
    Attempt m 1 (.ok { σ with
      values := fun x => if x = name then m.word sp else σ.values x }) (Passed site m sp (m.pc + 1)) := by
  have hhigh := hh.high
  have habove := h.above
  have hlow := hs.low
  have hargs := hs.arguments
  obtain ⟨hplace, hlt⟩ := hs.place_bounds hr hp
  obtain ⟨m₁, hw, hm₁⟩ : ∃ m₁, Walk 1 m m₁ ∧ Popped m sp place m₁ := by
    cases hkind : s.kind <;> simp only [Site.place?, hkind, Option.some.injEq, reduceCtorEq] at hp <;>
      subst hp <;> simp only [Symbol.pop, hkind, Symbol.Kind.segment] at hi
    · exact walk_pop_of_base hh (by omega) hi rfl h.arg (by omega)
    · exact walk_pop_of_base hh (by omega) hi rfl h.lcl (by omega)
  refine .ok hw ⟨by rw [hm₁.control], hm₁.pc, ⟨?_, by omega, by omega⟩, ?_⟩
  · rw [hm₁.word, if_neg (by omega), if_pos rfl]
  · refine h.assigned hr hthis (fun a h0 ha => ?_) ?_ (fun name' s' hr' hname hk => ?_)
    · rw [hm₁.word, if_neg (by omega), if_neg (by omega)]
    · rw [variableWord_of_place hp, hm₁.word, if_pos rfl]
    · cases hp' : site.place? s' with
      | none =>
        rw [variableWord_of_none hp', variableWord_of_none hp', className, hm₁.control]
        rfl
      | some place' =>
        have hne : place' ≠ place := by
          rintro rfl
          exact hname (hs.eq_of_place hr' hr hp' hp)
        have := (hs.place_bounds hr' hp').1
        rw [variableWord_of_place hp', variableWord_of_place hp', hm₁.word, if_neg hne,
          if_neg (by omega)]

/-- The value on top goes to a static variable. -/
theorem attempt_write_static {s : Symbol} (h : Agrees site σ m sp) (hs : site.Sound)
    (hh : Height m (sp + 1)) (hr : site.bindings.resolve name = some s)
    (hthis : name ≠ Keyword.thisKeyword.text) (hi : m.instruction? = some s.pop)
    (hk : s.kind = .staticVar) :
    Attempt m 1 (.ok { σ with
      values := fun x => if x = name then m.word sp else σ.values x }) (Passed site m sp (m.pc + 1)) := by
  have hhigh := hh.high
  have habove := h.above
  have hlow := hs.low
  have hargs := hs.arguments
  simp only [Symbol.pop, hk, Symbol.Kind.segment] at hi
  have hpop := run_pop_of_pushed (m := m.next) hh.stack (by omega) (by omega)
  have hstep : step.run m = .ok none
      { m.next.lowered sp with
        statics := m.statics.insert (m.className, s.index) (m.word sp) } := by
    rw [run_step hi]
    simp only [perform, run_bind, hpop, writeElement, locate, run_get, run_pure, run_modify]
    rfl
  have hword : ∀ a, ({ m.next.lowered sp with
      statics := m.statics.insert (m.className, s.index) (m.word sp) } : Machine).word a =
      if a = 0 then saturate sp else m.word a := fun a => word_lowered (m := m.next) sp a
  refine .ok (.single (by simp [hi]) hstep) ⟨rfl, rfl, ⟨?_, by omega, by omega⟩, ?_⟩
  · rw [hword, if_pos rfl]
  · refine h.assigned hr hthis (fun a h0 _ => ?_) ?_ (fun name' s' hr' hname hk' => ?_)
    · rw [hword, if_neg (by omega)]
    · simp only [variableWord, hk]
      exact Std.HashMap.getD_insert_self
    · cases hp' : site.place? s' with
      | none =>
        have hkind' : s'.kind = .staticVar := by
          cases hkind : s'.kind <;> simp_all [Site.place?]
        have hne : s.index ≠ s'.index := fun hindex =>
          hname (hs.injective hr' hr (hkind'.trans hk.symm) hindex.symm)
        rw [variableWord_of_none hp', variableWord_of_none hp']
        exact (Std.HashMap.getD_insert ..).trans (if_neg (by simp [className, hne, next, lowered, put]))
      | some place' =>
        have := (hs.place_bounds hr' hp').1
        rw [variableWord_of_place hp', variableWord_of_place hp', hword, if_neg (by omega)]

/-- The value on top goes to a field. -/
theorem attempt_write_field {s : Symbol} (h : Agrees site σ m sp) (hs : site.Sound)
    (hh : Height m (sp + 1)) (hi : m.instruction? = some s.pop) (hk : s.kind = .field) :
    Attempt m 1 (σ.store (σ.field s.index) (m.word sp)) (Passed site m sp (m.pc + 1)) := by
  have hhigh := hh.high
  have habove := h.above
  have hlow := hs.low
  have hargs := hs.arguments
  cases hst : σ.store (σ.field s.index) (m.word sp) with
  | error reason =>
    cases reason with
    | divisionByZero => exact absurd hst (store_ne_divisionByZero _ _ _)
    | outside => trivial
    | foreign => trivial
  | ok σ' =>
    obtain ⟨hlo, hhi, rfl⟩ := store_eq_ok.1 hst
    obtain ⟨n, hle, hthis, haddr⟩ := exists_this hlo
    rw [haddr, show ((n : Int) + s.index).toNat = n + s.index by omega]
    simp only [Symbol.pop, hk, Symbol.Kind.segment] at hi
    obtain ⟨m₁, hw, hm₁⟩ := walk_pop_of_base hh (by omega) hi rfl (h.this.trans hthis) (by omega)
    refine .ok hw ⟨by rw [hm₁.control], hm₁.pc, ⟨?_, by omega, by omega⟩, ?_⟩
    · rw [hm₁.word, if_neg (by omega), if_pos rfl]
    · refine h.stored hs (by omega) (by rw [hm₁.control]) (fun a h0 _ _ _ => ?_) (by omega)
      rw [hm₁.word, if_neg h0]

/-- The value on top is assigned to a variable. -/
theorem attempt_write (h : Agrees site σ m sp) (hs : site.Sound) (hh : Height m (sp + 1))
    (hd : site.bindings.Declares name) (hthis : name ≠ Keyword.thisKeyword.text)
    (hcode : Placed m.program m.pc (site.bindings.write name)) :
    Attempt m (site.bindings.write name).length (σ.write site.bindings name (m.word sp))
      (Passed site m sp (m.pc + (site.bindings.write name).length)) := by
  obtain ⟨s, hr⟩ := Option.isSome_iff_exists.1 hd
  have hwrite : site.bindings.write name = [s.pop] := by simp [Bindings.write, hr]
  rw [hwrite] at hcode ⊢
  have hi : m.instruction? = some s.pop := hcode.1
  simp only [Store.write, hr]
  by_cases hk : s.kind = .field
  · rw [if_pos hk]
    exact attempt_write_field h hs hh hi hk
  · rw [if_neg hk]
    cases hp : site.place? s with
    | some place => exact attempt_write_place h hs hh hr hthis hi hp
    | none =>
      have hstatic : s.kind = .staticVar := by
        cases hkind : s.kind <;> simp_all [Site.place?]
      exact attempt_write_static h hs hh hr hthis hi hstatic

end Assignments

/-- A value is about to be popped to the address that lay below it, with nothing else changed but the
cell that kept it meanwhile. -/
structure Aimed (m : Machine) (sp : Nat) (m' : Machine) : Prop where
  control : m' = { m with ram := m'.ram, pc := m.pc + 3 }
  height : Height m' (sp + 1)
  top : m'.word sp = m.word (sp + 1)
  that : m'.word 4 = m.word sp
  others : ∀ a, a ≠ 0 → a ≠ 4 → a ≠ 5 → a ≠ sp → m'.word a = m.word a

/-- The value is kept in `temp 0` while the address goes to `pointer 1`. -/
theorem exists_aimed (hh : Height m (sp + 2)) (hlow : 5 < sp)
    (hcode : Placed m.program m.pc Compiler.storeElement) :
    ∃ m₁ m₂ m₃, Walk 1 m m₁ ∧ Popped m (sp + 1) 5 m₁ ∧ Walk 1 m₁ m₂ ∧ Popped m₁ sp 4 m₂ ∧
      Walk 1 m₂ m₃ ∧ m₃.instruction? = some (.pop .that 0) ∧ Aimed m sp m₃ := by
  have hhigh := hh.high
  obtain ⟨hkeep, hbase, hpush, hput, -⟩ := hcode
  obtain ⟨m₁, hw₁, hm₁⟩ := walk_pop_of_fixed hh (by omega) hkeep
    (show fixed? .temp = some tempBase from rfl) (by decide)
  have hword₁ : ∀ a, m₁.word a =
      if a = 5 then m.word (sp + 1) else if a = 0 then saturate (sp + 1) else m.word a := hm₁.word
  have hh₁ : Height m₁ (sp + 1) := ⟨by rw [hword₁]; rfl, by omega, by omega⟩
  have hi₁ : m₁.instruction? = some (.pop .pointer 1) := by
    rw [instruction?, hm₁.program, hm₁.pc]
    exact hbase
  obtain ⟨m₂, hw₂, hm₂⟩ := walk_pop_of_fixed hh₁ (by omega) hi₁
    (show fixed? .pointer = some pointerBase from rfl) (by decide)
  have hword₂ : ∀ a, m₂.word a = if a = 4 then m.word sp else if a = 0 then saturate sp
      else if a = 5 then m.word (sp + 1) else m.word a := by
    intro a
    have htop : m₁.word sp = m.word sp := by rw [hword₁, if_neg (by omega), if_neg (by omega)]
    rw [hm₂.word, htop, hword₁]
    simp only [pointerBase]
    grind
  have hh₂ : Height m₂ sp := ⟨by rw [hword₂]; rfl, by omega, by omega⟩
  have hi₂ : m₂.instruction? = some (.push .temp 0) := by
    rw [instruction?, hm₂.program, hm₂.pc, hm₁.program, hm₁.pc]
    exact hpush
  have hread : (readElement .temp 0).run m₂.next = .ok (m.word (sp + 1)) m₂.next := by
    rw [run_readElement (run_locate_of_fixed rfl) (by decide)]
    exact congrArg (EStateM.Result.ok · m₂.next) (hword₂ 5)
  have hw₃ := Walk.single (by simp [hi₂]) (run_step_push hi₂ hread hh₂.stack (by omega))
  have hd₃ := delivers_pushed m₂ (m.word (sp + 1)) (by omega : 4 < sp) (by omega)
  set m₃ := m₂.next.pushed sp (m.word (sp + 1)) with hm₃
  have hword₃ : ∀ a, a ≠ 0 → a ≠ sp → m₃.word a = m₂.word a := by
    intro a h0 ha
    rw [hm₃, word_pushed _ _ (by omega), if_neg h0, if_neg ha]
    rfl
  have hi₃ : m₃.instruction? = some (.pop .that 0) := by
    rw [instruction?, hd₃.keeps.program, hd₃.pc, hm₂.program, hm₂.pc, hm₁.program, hm₁.pc]
    exact hput
  refine ⟨m₁, m₂, m₃, hw₁, hm₁, hw₂, hm₂, hw₃, hi₃, ?_, hd₃.height, hd₃.top, ?_,
    fun a h0 h4 h5 ha => ?_⟩
  · have hpc : m₃.pc = m.pc + 3 := by rw [hd₃.pc, hm₂.pc, hm₁.pc]
    rw [← hpc, hd₃.keeps.control, hm₂.control, hm₁.control]
  · rw [hword₃ 4 (by decide) (by omega), hword₂, if_pos rfl]
  · rw [hword₃ a h0 ha, hword₂, if_neg h4, if_neg h0, if_neg h5]

/-- The value on top goes to the element whose address lies below it. -/
theorem attempt_storeElement (h : Agrees site σ m sp) (hs : site.Sound) (hh : Height m (sp + 2))
    (hcode : Placed m.program m.pc Compiler.storeElement) :
    Attempt m 4 (σ.store (m.word sp).toInt (m.word (sp + 1))) (Passed site m sp (m.pc + 4)) := by
  have hhigh := hh.high
  have habove := h.above
  have hlow := hs.low
  have hargs := hs.arguments
  cases hst : σ.store (m.word sp).toInt (m.word (sp + 1)) with
  | error reason =>
    cases reason with
    | divisionByZero => exact absurd hst (store_ne_divisionByZero _ _ _)
    | outside => trivial
    | foreign => trivial
  | ok σ' =>
    obtain ⟨hlo, hhi, rfl⟩ := store_eq_ok.1 hst
    obtain ⟨address, hle, haddr⟩ := exists_saturate (show 0 ≤ m.word sp by
      rw [Int16.le_iff_toInt_le]
      exact Int.le_trans (by decide) hlo)
    rw [haddr, toInt_saturate hle] at hlo ⊢
    obtain ⟨m₁, m₂, m₃, hw₁, -, hw₂, -, hw₃, hi₃, haimed⟩ := exists_aimed hh (by omega) hcode
    obtain ⟨m₄, hw₄, hm₄⟩ := walk_pop_of_base haimed.height (by omega) hi₃ rfl
      (haimed.that.trans haddr) (by omega)
    have hword : ∀ a, a ≠ 4 → a ≠ 5 → a ≠ sp → m₄.word a =
        if a = address then m.word (sp + 1) else if a = 0 then saturate sp else m.word a := by
      intro a h4 h5 ha
      have hothers := haimed.others a
      rw [hm₄.word, haimed.top]
      grind
    have hcontrol : m₄ = { m with ram := m₄.ram, pc := m.pc + 4 } := by
      rw [hm₄.control, haimed.control]
    refine .ok (((hw₁.trans hw₂).trans hw₃).trans hw₄)
      ⟨by rw [hcontrol], by rw [hcontrol], ⟨?_, by omega, by omega⟩, ?_⟩
    · rw [hword 0 (by decide) (by decide) (by omega), if_neg (by omega), if_pos rfl]
    · refine h.stored hs (by omega) (by rw [hcontrol]) (fun a h0 h4 h5 ha => ?_) (by omega)
      rw [hword a h4 h5 (by omega), if_neg h0]
      simp

end Machine

end Jack

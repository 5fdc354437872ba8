import Jack.Proofs.Calculation

/-!
# The value of an expression

In whichever state a machine stands at the code of an expression, the code computes the value that
the expression has in that state, and leaves it on top of the stack (`Expression.run_code`). All that
the code needs is room for as many words as it has on the stack at once (`peak`), and that the cells
it reads are such as it leaves alone (`Lasts`). It does not leave `pointer 1` alone, and a stack that
lies over it is not safe (`not_run_code_low`).
-/

namespace Jack

open Machine Syntax Compiler
open Token (Kind)

namespace Machine

variable {m m' : Machine} {sp : Nat}

/-! ## What a state holds -/

/-- The address belongs to the cells of the stack, up to the first free one, or to the heap. -/
def Lasts (sp : Nat) (address : Int) : Prop :=
  (256 ≤ address ∧ address < sp) ∨ (2048 ≤ address ∧ address < 32768)

instance (sp : Nat) (address : Int) : Decidable (Lasts sp address) :=
  inferInstanceAs (Decidable (_ ∨ _))

/-- The address of an element from where a register points; a negative register points nowhere. -/
def pointed (m : Machine) (r : Register) (index : Nat) : Int :=
  if m.word r.address < 0 then -1 else (m.word r.address).toInt + index

/-- The word at an address of the stack or the heap. -/
def held (m : Machine) (sp : Nat) (address : Int) : Except Stop Word :=
  if Lasts sp address then .ok (m.word address.toNat) else .error .outside

/-- The word of a variable, wherever it is kept. -/
def valueOf (m : Machine) (sp : Nat) (s : Symbol) : Except Stop Word :=
  match s.kind with
  | .staticVar => .ok (m.statics.getD (m.className, s.index) 0)
  | .field => m.held sp (m.pointed .this s.index)
  | .argument => m.held sp (m.pointed .arg s.index)
  | .localVar => m.held sp (m.pointed .lcl s.index)

/-- What the code of a subroutine finds in a state, with the stack up to there. -/
def view (m : Machine) (b : Bindings) (sp : Nat) : View where
  this := m.word (if b.kind = .method then (m.pointed .arg 0).toNat else Register.this.address)
  named name := match b.resolve name with
    | none => .error .foreign
    | some s => m.valueOf sp s
  element address := m.word <$> Store.cell address.toInt

variable {value : Word} {r : Register} {index : Nat} {segment : Segment} {address : Int}

theorem held_eq_ok : m.held sp address = .ok value ↔
    Lasts sp address ∧ m.word address.toNat = value := by
  unfold held
  split <;> simp_all

theorem held_ne_divisionByZero (m : Machine) (sp : Nat) (address : Int) :
    m.held sp address ≠ .error .divisionByZero := by
  unfold held
  split <;> simp

theorem Extends.held_eq (h : Extends m sp m') (hl : Lasts sp address) :
    m'.word address.toNat = m.word address.toNat := by
  simp only [Lasts] at hl
  exact h.cells _ (by omega) (by omega) (by omega)

/-- The element that a register points at is read through the register, whatever the code of an
expression does before. -/
theorem yields_of_base (hh : Height m sp) (hs : base? segment = some r) (hr : r ≠ .that)
    (hv : m.held sp (m.pointed r index) = .ok value) : Yields m sp segment index value := by
  intro m' he
  have hhigh := hh.high
  obtain ⟨hlasts, rfl⟩ := held_eq_ok.1 hv
  have hplace := hlasts
  simp only [Lasts] at hplace
  have hnonneg : 0 ≤ m.word r.address := by
    rw [← Int16.not_lt]
    intro hneg
    rw [pointed, if_pos hneg] at hplace
    omega
  obtain ⟨base, hle, hbase⟩ := exists_saturate hnonneg
  have haddress : m.pointed r index = (base + index : Nat) := by
    rw [pointed, if_neg (Int16.not_lt.2 hnonneg), hbase, toInt_saturate hle, Int.natCast_add]
  have hregister : m'.word r.address = saturate base := by
    rw [← hbase]
    cases r with
    | sp => cases segment <;> simp [base?] at hs
    | that => exact absurd rfl hr
    | _ => exact he.cells _ (by decide) (by decide) (.inl (Nat.lt_trans (by decide) hh.low))
  have hcell := he.held_eq hlasts
  rw [haddress, Int.toNat_natCast] at hcell ⊢
  rw [haddress] at hplace
  rw [run_readElement (run_locate_of_base hs hregister hle) (by omega), hcell]

theorem yields_valueOf {s : Symbol} (hh : Height m sp) (hv : m.valueOf sp s = .ok value) :
    Yields m sp s.kind.segment s.index value := by
  unfold valueOf at hv
  cases hk : s.kind <;> rw [hk] at hv
  case staticVar =>
    intro m' he
    cases hv
    rw [← he.statics, ← he.className]
    rfl
  all_goals exact yields_of_base hh rfl (by decide) hv

theorem yields_this {b : Bindings} (hh : Height m sp)
    (hreceiver : b.kind = .method → Lasts sp (m.pointed .arg 0))
    (hthis : b.this = .push segment index) :
    Yields m sp segment index (m.view b sp).this := by
  unfold Bindings.this at hthis
  by_cases hk : b.kind = .method
  · rw [if_pos hk] at hthis
    cases hthis
    refine yields_of_base hh rfl (by decide) (held_eq_ok.2 ⟨hreceiver hk, ?_⟩)
    simp only [view, if_pos hk]
  · rw [if_neg hk] at hthis
    cases hthis
    intro m' he
    rw [run_readElement (run_locate_of_fixed rfl) (by decide)]
    simp only [view, if_neg hk]
    exact congrArg (EStateM.Result.ok · m') (he.cells 3 (by decide) (by decide)
      (.inl (Nat.lt_trans (by decide) hh.low)))

theorem valueOf_ne_divisionByZero (m : Machine) (sp : Nat) (s : Symbol) :
    m.valueOf sp s ≠ .error .divisionByZero := by
  unfold valueOf
  split
  · simp
  all_goals exact held_ne_divisionByZero _ _ _

theorem shows_view {b : Bindings} {names : List String} {this : Bool} (hh : Height m sp)
    (hdeclares : ∀ name ∈ names, b.Declares name)
    (hreceiver : this = true → b.kind = .method → Lasts sp (m.pointed .arg 0)) :
    Shows b (m.view b sp) m sp names this where
  named name hn := by
    obtain ⟨s, hs⟩ := Option.isSome_iff_exists.1 (hdeclares name hn)
    refine ⟨s, hs, fun value hv => yields_valueOf hh ?_⟩
    simpa only [view, hs] using hv
  this ht _ _ hthis := yields_this hh (hreceiver ht) hthis
  element address value hv := by
    simp only [view, Store.cell] at hv
    split at hv
    · rename_i hplace
      cases hv
      exact ⟨hplace.1, rfl⟩
    · cases hv
  stops name := by
    simp only [view]
    split
    · simp
    · exact valueOf_ne_divisionByZero _ _ _
  stops' address := by
    simp only [view, Store.cell]
    split <;> simp

end Machine

/-! ## Running the code of an expression -/

namespace Syntax

variable {b : Bindings} {e : Expression} {m m' : Machine} {sp : Nat}

/-- The machine stands at the code of an expression with the stack up to there: there is room for
what the code does, and all it reads are cells of the stack and the heap. -/
structure Poised (b : Bindings) (e : Expression) (m : Machine) (sp : Nat) : Prop where
  plain : e.Plain
  integers : ∀ n, Kind.integer n ∈ e.tokens → n ≤ 32767
  declares : ∀ name ∈ e.mentions, b.Declares name
  placed : Placed m.program m.pc (e.code b)
  stack : m.word 0 = saturate sp
  room : sp + peak 0 (e.code b) ≤ 2048
  receiver : e.usesThis = true → b.kind = .method → Lasts sp (m.pointed .arg 0)
  inside : e.value (m.view b sp) ≠ .error .outside

theorem Poised.attempt (h : Poised b e m sp) (hlow : 4 < sp) :
    Attempt m (e.code b).length (e.value (m.view b sp)) (Delivers m sp (e.code b).length) := by
  have hh : Height m sp := ⟨h.stack, hlow, Nat.le_trans (Nat.le_add_right ..) h.room⟩
  exact e.attempt h.plain h.integers
    { height := hh
      placed := h.placed
      shows := shows_view hh h.declares h.receiver
      room := room_of_peak (e.reckons h.plain) (e.settle_code h.declares 0) h.placed h.stack
        (by omega) h.room }

theorem Poised.value_ne_foreign (h : Poised b e m sp) :
    e.value (m.view b sp) ≠ .error .foreign := by
  refine e.value_ne_foreign (fun address => ?_) h.plain fun name hn => ?_
  · simp only [view, Store.cell]
    split <;> simp
  · obtain ⟨s, hs⟩ := Option.isSome_iff_exists.1 (h.declares name hn)
    simp only [view, hs, valueOf, held]
    split <;> (try split) <;> simp

/-- The code of an expression pushes the value that the expression has, and changes nothing else but
`pointer 1` and the cells above the stack; or it comes to a division that fails, just when there is
none. -/
theorem Expression.run_code (h : Poised b e m sp) (hlow : 4 < sp) :
    ((∃ v, e.value (m.view b sp) = .ok v) ∨ e.value (m.view b sp) = .error .divisionByZero) ∧
      (∀ v, e.value (m.view b sp) = .ok v →
        ∃ m', Walk (e.code b).length m m' ∧ Delivers m sp (e.code b).length v m') ∧
      (DividesWithin (e.code b).length m ↔ e.value (m.view b sp) = .error .divisionByZero) := by
  have hattempt := h.attempt hlow
  have hforeign := h.value_ne_foreign
  have hinside := h.inside
  match hv : e.value (m.view b sp) with
  | .ok v =>
    rw [hv] at hattempt
    obtain ⟨m', hw, hd⟩ := hattempt
    refine ⟨.inl ⟨v, rfl⟩, ?_, fun hdivides => absurd hw hdivides.not_walk, by simp⟩
    rintro _ ⟨⟩
    exact ⟨m', hw, hd⟩
  | .error .divisionByZero =>
    rw [hv] at hattempt
    exact ⟨.inr rfl, by simp, fun _ => rfl, fun _ => hattempt⟩
  | .error .outside => exact absurd hv hinside
  | .error .foreign => exact absurd hv hforeign

/-! ## An element in a sum -/

/-- A class has one static variable. -/
def sumBindings : Bindings where
  className := "A"
  kind := .function
  visible := [⟨"a", "Array", .staticVar, 0⟩]

/-- The expression `1 + a[0]`. -/
def sumExpression : Expression :=
  .operation (.term (.integer 1)) .add (.element "a" (.term (.integer 0)))

/-- A machine at the code of the sum, with the array at 3000. -/
def sumMachine (sp : Nat) : Machine :=
  { (ofProgram (.ofInstructions (sumExpression.code sumBindings))).put 0 (saturate sp) with
    function := "A.f"
    statics := Std.HashMap.insert ∅ ("A", 0) 3000 }

def sumSketch (sp : Nat) : Sketch where
  pc := 0
  cells := [(0, saturate sp)]
  statics index := if index = 0 then 3000 else 0

theorem draws_sumMachine (sp : Nat) : Draws (sumMachine sp) (sumSketch sp) (sumMachine sp) where
  control := rfl
  word a := by
    have hput : (sumMachine sp).word a =
        ((ofProgram (.ofInstructions (sumExpression.code sumBindings))).put 0 (saturate sp)).word a :=
      rfl
    have hsketch : (sumSketch sp).word a = if 0 = a then saturate sp else 0 :=
      Sketch.word_put ⟨0, [], (sumSketch sp).statics⟩ 0 a (saturate sp)
    rw [hput, hsketch, word_put_of_lt _ _ (by decide), word_ofProgram]
    grind
  statics index := by
    have hclass : (sumMachine sp).className = "A" := by
      rw [className, show (sumMachine sp).function = "A.f" from rfl]
      decide +kernel
    rw [hclass, show (sumMachine sp).statics = Std.HashMap.insert ∅ ("A", 0) 3000 from rfl,
      Std.HashMap.getD_insert, Std.HashMap.getD_empty, sumSketch]
    simp only [beq_iff_eq, Prod.mk.injEq, true_and, @eq_comm _ 0 index]

theorem value_sumExpression (sp : Nat) :
    sumExpression.value ((sumMachine sp).view sumBindings sp) = .ok 1 := by
  have harray : ((sumMachine sp).view sumBindings sp).named "a" = .ok 3000 :=
    congrArg Except.ok ((draws_sumMachine sp).statics 0)
  have helement : ((sumMachine sp).view sumBindings sp).element (3000 + Int16.ofNat 0) = .ok 0 := by
    have hcell : Store.cell ((3000 + Int16.ofNat 0 : Word).toInt) = .ok 3000 := rfl
    simp only [view, hcell]
    exact congrArg Except.ok ((draws_sumMachine sp).word 3000)
  have hvalue : sumExpression.value ((sumMachine sp).view sumBindings sp) =
      (((sumMachine sp).view sumBindings sp).named "a" >>= fun base =>
        ((sumMachine sp).view sumBindings sp).element (base + Int16.ofNat 0)) >>= fun c =>
          .ok (Int16.ofNat 1 + c) := rfl
  rw [hvalue, harray]
  exact congrArg (· >>= fun c => .ok (Int16.ofNat 1 + c)) helement

theorem poised_sumMachine {sp : Nat} (h : sp + 3 ≤ 2048) :
    Poised sumBindings sumExpression (sumMachine sp) sp where
  plain := ⟨trivial, trivial⟩
  integers := by
    intro n hn
    have hmem : n = 1 ∨ n = 0 := by simpa [sumExpression, Expression.tokens, Term.tokens] using hn
    omega
  declares := by decide +kernel
  placed := ⟨rfl, rfl, rfl, rfl, rfl, rfl, rfl, trivial⟩
  stack := (draws_sumMachine sp).word 0
  room := h
  receiver h := by cases h
  inside := by simp [value_sumExpression]

/-- In the stack the sum is one. -/
theorem run_code_sum : ∃ m', Walk 7 (sumMachine 256) m' ∧ m'.word 256 = 1 := by
  obtain ⟨m', hw, hd⟩ := (Expression.run_code (poised_sumMachine (by decide)) (by decide)).2.1 1
    (value_sumExpression 256)
  exact ⟨m', hw, hd.top⟩

/-- If the stack begins at `pointer 1`, the array comes to stand where the first summand was. -/
theorem walk_sumMachine_low : ∃ m', Walk 7 (sumMachine 4) m' ∧ m'.word 4 = 3000 := by
  obtain ⟨s', hs, htop⟩ : ∃ s' ∈ ((sumSketch 4).trail (sumExpression.code sumBindings) "A.f" 7)[7]?,
      s'.word 4 = 3000 := by decide +kernel
  have hnodup : (labelsOf (sumExpression.code sumBindings)).Nodup := List.nodup_nil
  obtain ⟨m', hw, hm'⟩ := (draws_sumMachine 4).exists_walk rfl hnodup hs
  exact ⟨m', hw, (hm'.word 4).trans htop⟩

/-- So the code of an expression does not leave its value there from every stack pointer. -/
theorem not_run_code_low : ¬ ∀ (b : Bindings) (e : Expression) (m : Machine) (sp : Nat),
    Poised b e m sp → ∀ v, e.value (m.view b sp) = .ok v →
      ∃ m', Walk (e.code b).length m m' ∧ m'.word sp = v := by
  intro h
  obtain ⟨m', hw, htop⟩ := h _ _ _ 4 (poised_sumMachine (by decide)) 1 (value_sumExpression 4)
  obtain ⟨m₇, hw₇, hlow⟩ := walk_sumMachine_low
  obtain rfl := hw.unique hw₇
  rw [hlow] at htop
  exact absurd htop (by decide)

end Syntax

end Jack

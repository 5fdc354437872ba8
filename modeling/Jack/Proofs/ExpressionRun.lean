import Jack.Proofs.Walking
import Jack.Syntax.Written
import Mathlib.Tactic.Set

/-!
# Running the code of an expression

The code of an expression pushes its value and disturbs nothing (`Expression.attempt`): below the
stack pointer and in the heap every cell stays as it was, but for the register that elements are
read through. What the expression sees has to be what the machine shows (`Shows`).
-/

namespace Jack

open Machine Syntax
open Token (Kind)

namespace Machine

/-! ## What an expression leaves alone -/

/-- Nothing has changed but the cells from `sp` on, the stack pointer and `pointer 1`. -/
structure Extends (m : Machine) (sp : Nat) (m' : Machine) : Prop where
  control : m' = { m with ram := m'.ram, pc := m'.pc }
  cells : ∀ a, a ≠ 0 → a ≠ 4 → a < sp ∨ 2048 ≤ a → m'.word a = m.word a

namespace Extends

variable {m m₁ m' : Machine} {sp sp' : Nat}

theorem trans (h : Extends m sp m₁) (h' : Extends m₁ sp' m') (hle : sp ≤ sp') : Extends m sp m' := by
  refine ⟨?_, fun a h0 h4 ha => (h'.cells a h0 h4 (by omega)).trans (h.cells a h0 h4 ha)⟩
  rw [h'.control, h.control]

theorem program (h : Extends m sp m') : m'.program = m.program := by rw [h.control]

theorem statics (h : Extends m sp m') : m'.statics = m.statics := by rw [h.control]

theorem function (h : Extends m sp m') : m'.function = m.function := by rw [h.control]

theorem frames (h : Extends m sp m') : m'.frames = m.frames := by rw [h.control]

theorem className (h : Extends m sp m') : m'.className = m.className := by
  rw [Machine.className, h.function, Machine.className]

end Extends

/-- So many cells below the heap are in use, and none of them is a register. -/
structure Height (m : Machine) (sp : Nat) : Prop where
  stack : m.word 0 = saturate sp
  low : 4 < sp
  high : sp ≤ 2048

/-- The machine comes out with a value on top of `sp` cells, behind so much code. -/
structure Delivers (m : Machine) (sp length : Nat) (value : Word) (m' : Machine) : Prop where
  keeps : Extends m sp m'
  height : Height m' (sp + 1)
  top : m'.word sp = value
  pc : m'.pc = m.pc + length

theorem Delivers.after {m m₁ m' : Machine} {sp sp' l l' : Nat} {value : Word}
    (h : Delivers m₁ sp l' value m') (he : Extends m sp' m₁) (hle : sp ≤ sp')
    (hpc : m₁.pc = m.pc + l) : Delivers m sp (l + l') value m' where
  keeps := by
    refine ⟨?_, fun a h0 h4 ha => ?_⟩
    · rw [h.keeps.control, he.control]
    · rw [h.keeps.cells a h0 h4 ha, he.cells a h0 h4 (by omega)]
  height := h.height
  top := h.top
  pc := by rw [h.pc, hpc, Nat.add_assoc]

/-! ## What the machine shows -/

/-- However the expression goes on, the element of the segment reads as the word. -/
def Yields (m : Machine) (sp : Nat) (segment : Segment) (index : Nat) (value : Word) : Prop :=
  ∀ m', Extends m sp m' → (readElement segment index).run m' = .ok value m'

theorem Yields.onward {m m' : Machine} {sp sp' : Nat} {segment : Segment} {index : Nat}
    {value : Word} (h : Yields m sp segment index value) (he : Extends m sp m') (hle : sp ≤ sp') :
    Yields m' sp' segment index value := fun m'' he' => h m'' (he.trans he' hle)

end Machine

namespace Syntax

/-- What the machine shows of the variables, the current object and the heap is what is in view. -/
structure Shows (b : Bindings) (view : View) (m : Machine) (sp : Nat) (names : List String)
    (this : Bool) : Prop where
  named : ∀ name ∈ names, ∃ s, b.resolve name = some s ∧
    ∀ value, view.named name = .ok value → Yields m sp s.kind.segment s.index value
  this : this = true → ∀ segment index, b.this = .push segment index →
    Yields m sp segment index view.this
  element : ∀ address value, view.element address = .ok value →
    2048 ≤ address.toInt ∧ m.word address.toInt.toNat = value
  stops : ∀ name, view.named name ≠ .error .divisionByZero
  stops' : ∀ address, view.element address ≠ .error .divisionByZero

namespace Shows

variable {b : Bindings} {view : View} {m m' : Machine} {sp sp' : Nat} {names names' : List String}
  {this this' : Bool}

theorem onward (h : Shows b view m sp names this) (he : Extends m sp m') (hle : sp ≤ sp') :
    Shows b view m' sp' names this where
  named name hn := by
    obtain ⟨s, hs, hv⟩ := h.named name hn
    exact ⟨s, hs, fun value hval => (hv value hval).onward he hle⟩
  this ht segment index hp := (h.this ht segment index hp).onward he hle
  element address value hval := by
    obtain ⟨ha, hw⟩ := h.element address value hval
    refine ⟨ha, ?_⟩
    rw [he.cells _ (by omega) (by omega) (.inr (by omega)), hw]
  stops := h.stops
  stops' := h.stops'

theorem mono (h : Shows b view m sp names this) (hsub : ∀ name ∈ names', name ∈ names)
    (ht : this' = true → this = true) : Shows b view m sp names' this' where
  named name hn := h.named name (hsub name hn)
  this hu := h.this (ht hu)
  element := h.element
  stops := h.stops
  stops' := h.stops'

end Shows

end Syntax

/-! ## Single instructions -/

namespace Machine

variable {m : Machine} {sp : Nat}

theorem extends_pushed (m : Machine) (value : Word) (h : sp < 2048) :
    Extends m sp (m.next.pushed sp value) := by
  refine ⟨rfl, fun a h0 _ ha => ?_⟩
  rw [word_pushed _ _ (by omega), if_neg h0, if_neg (by omega)]
  rfl

theorem delivers_pushed (m : Machine) (value : Word) (hlow : 4 < sp) (h : sp < 2048) :
    Delivers m sp 1 value (m.next.pushed sp value) where
  keeps := extends_pushed m value h
  height := ⟨by rw [word_pushed _ _ (by omega), if_pos rfl], by omega, by omega⟩
  top := by rw [word_pushed _ _ (by omega), if_neg (by omega), if_pos rfl]
  pc := rfl

/-- A step that pushes on the first cells keeps within the room. -/
theorem attempt_pushed {value : Word} (hret : m.instruction? ≠ some (.command .ret))
    (hstep : step.run m = .ok none (m.next.pushed sp value)) (hlow : 4 < sp) (hhigh : sp ≤ 2048)
    (hroom : Room 1 m) : Attempt m 1 (.ok value) (Delivers m sp 1) := by
  have hw := Walk.single hret hstep
  have hle : sp + 1 ≤ 2048 := hroom.le (Nat.le_refl 1) hw
    (by rw [word_pushed _ _ (by omega), if_pos rfl]) (by omega)
  exact .ok hw (delivers_pushed m value hlow hle)

theorem extends_next (m : Machine) (sp : Nat) : Extends m sp m.next := ⟨rfl, fun _ _ _ _ => rfl⟩

theorem attempt_push {segment : Segment} {index : Nat} {value : Word} (h : Height m sp)
    (hi : m.instruction? = some (.push segment index))
    (hread : (readElement segment index).run m.next = .ok value m.next) (hroom : Room 1 m) :
    Attempt m 1 (.ok value) (Delivers m sp 1) :=
  attempt_pushed (by simp [hi]) (run_step_push hi hread h.stack (Nat.lt_of_le_of_lt h.high (by decide)))
    h.low h.high hroom

/-- The value on top has gone to a cell. -/
structure Popped (m : Machine) (sp place : Nat) (m' : Machine) : Prop where
  control : m' = { m with ram := m'.ram, pc := m.pc + 1 }
  word : ∀ a, m'.word a = if a = place then m.word sp else if a = 0 then saturate sp else m.word a

theorem Popped.pc {m' : Machine} {place : Nat} (h : Popped m sp place m') : m'.pc = m.pc + 1 := by
  rw [h.control]

theorem Popped.program {m' : Machine} {place : Nat} (h : Popped m sp place m') :
    m'.program = m.program := by rw [h.control]

theorem walk_pop {segment : Segment} {place index : Nat} (h : Height m (sp + 1)) (hpos : 0 < sp)
    (hi : m.instruction? = some (.pop segment index))
    (hl : (locate index segment).run (m.next.lowered sp) = .ok (.memory place) (m.next.lowered sp))
    (hle : place ≤ 32767) : ∃ m', Walk 1 m m' ∧ Popped m sp place m' := by
  have hhigh := h.high
  have hstep := run_step_pop hi hl hle h.stack hpos (by omega)
  refine ⟨_, .single (by simp [hi]) hstep, rfl, fun a => ?_⟩
  rw [word_put_of_lt _ _ hle, word_lowered]
  simp only [eq_comm]
  rfl

/-- The value on top goes to the cell that lies at the index from where a register points. -/
theorem walk_pop_of_base {segment : Segment} {r : Register} {base index : Nat}
    (h : Height m (sp + 1)) (hpos : 0 < sp) (hi : m.instruction? = some (.pop segment index))
    (hs : base? segment = some r) (hr : m.word r.address = saturate base)
    (hle : base + index ≤ 32767) : ∃ m', Walk 1 m m' ∧ Popped m sp (base + index) m' := by
  refine walk_pop h hpos hi (run_locate_of_base hs ?_ (by omega)) hle
  have hne : r.address ≠ 0 := by
    cases segment <;> simp only [base?, reduceCtorEq, Option.some.injEq] at hs <;> subst hs <;> decide
  rw [word_lowered, if_neg hne]
  exact hr

theorem walk_pop_of_fixed {segment : Segment} {base index : Nat} (h : Height m (sp + 1))
    (hpos : 0 < sp) (hi : m.instruction? = some (.pop segment index))
    (hs : fixed? segment = some base) (hle : base + index ≤ 32767) :
    ∃ m', Walk 1 m m' ∧ Popped m sp (base + index) m' :=
  walk_pop h hpos hi (run_locate_of_fixed hs) hle

theorem attempt_unary {op : UnaryOperator} (h : Height m (sp + 1)) (hlow : 4 < sp)
    (hi : m.instruction? = some op.instruction) (hroom : Room 1 m) :
    Attempt m 1 (.ok (op.apply (m.word sp))) (Delivers m sp 1) := by
  refine attempt_pushed (by cases op <;> simp [hi, UnaryOperator.instruction]) ?_ hlow
    (by have := h.high; omega) hroom
  have hrun := fun f => run_unary (m := m.next) f h.stack (by have := h.high; omega) (by omega)
  rw [run_step hi]
  cases op <;> simp only [UnaryOperator.instruction, perform, runCommand, run_bind, hrun, run_pure] <;>
    rfl

theorem attempt_operator {op : Operator} (h : Height m (sp + 2)) (hlow : 4 < sp)
    (hi : m.instruction? = some op.instruction) (hroom : Room 1 m) :
    Attempt m 1 (op.apply (m.word sp) (m.word (sp + 1))) (Delivers m sp 1) := by
  have hhigh := h.high
  have hret : m.instruction? ≠ some (.command .ret) := by
    cases op <;> simp [hi, Operator.instruction, Routine.call]
  have hrun := fun f => run_binary (m := m.next) f h.stack (by omega) (by omega)
  cases op with
  | multiply =>
    have hcall : m.instruction? = some Routine.mathMultiply.call := hi
    exact attempt_pushed hret (run_step_routine hcall h.stack
      (show sp + 2 ≤ 32767 by omega) (by omega) (by omega) rfl) hlow (by omega) hroom
  | divide =>
    have hcall : m.instruction? = some Routine.mathDivide.call := hi
    have hrun : (runRoutine .mathDivide ((List.range' sp 2).map m.word)).run m.next =
        (some <$> divide (m.word sp) (m.word (sp + 1))).run m.next := rfl
    simp only [Operator.apply]
    by_cases hz : m.word (sp + 1) = 0 ∨ (m.word sp = -32768 ∧ m.word (sp + 1) = -1)
    · rw [if_pos hz]
      refine ⟨0, Nat.one_pos, m, m.next, .refl m, hcall, run_step_routine_error hcall h.stack
        (show sp + 2 ≤ 32767 by omega) (hrun.trans ?_)⟩
      rw [divide, if_pos hz]
      rfl
    · rw [if_neg hz]
      refine attempt_pushed hret (run_step_routine hcall h.stack
        (show sp + 2 ≤ 32767 by omega) (by omega) (by omega) (hrun.trans ?_)) hlow (by omega) hroom
      rw [divide, if_neg hz]
      rfl
  | _ =>
    refine attempt_pushed hret ?_ hlow (by omega) hroom
    rw [run_step hi]
    simp only [Operator.instruction, perform, runCommand, run_bind, hrun, run_pure, wordOfBool_decide]
    rfl

/-- The address on top is replaced by the element there. -/
theorem attempt_loadElement {value : Word} (h : Height m (sp + 1)) (hlow : 4 < sp)
    (hcode : Placed m.program m.pc Compiler.loadElement) (ha : 2048 ≤ (m.word sp).toInt)
    (hv : m.word (m.word sp).toInt.toNat = value) (hroom : Room 2 m) :
    Attempt m 2 (.ok value) (Delivers m sp 2) := by
  obtain ⟨hpop, hpush, -⟩ := hcode
  have hhigh := h.high
  obtain ⟨address, hle, haddr⟩ := exists_saturate
    (show 0 ≤ m.word sp by rw [Int16.le_iff_toInt_le]; exact Int.le_trans (by decide) ha)
  rw [haddr, toInt_saturate hle] at ha hv
  obtain ⟨m₁, hw, hm₁⟩ := walk_pop_of_fixed h (by omega) hpop
    (show fixed? .pointer = some pointerBase from rfl) (by decide)
  have hword : ∀ a, m₁.word a = if a = 4 then saturate address else if a = 0 then saturate sp
      else m.word a := by
    rw [← haddr]
    exact hm₁.word
  have hkeeps : Extends m sp m₁ :=
    ⟨by rw [hm₁.control], fun a h0 h4 _ => by rw [hword, if_neg h4, if_neg h0]⟩
  have hread : (readElement .that 0).run m₁.next = .ok value m₁.next := by
    have hthat : m₁.next.word Register.that.address = saturate address := hword 4
    rw [run_readElement (run_locate_of_base rfl hthat hle) (by omega)]
    have hcell := hword address
    rw [if_neg (by omega), if_neg (by omega)] at hcell
    exact congrArg (EStateM.Result.ok · m₁.next) (hcell.trans hv)
  have hi : m₁.instruction? = some (.push .that 0) := by
    rw [instruction?, hm₁.program, hm₁.pc]
    exact hpush
  have hpushes := attempt_push (m := m₁) ⟨(hword 0).trans (by simp), hlow, by omega⟩ hi hread
    (hroom.of_walk (k := 1) hw)
  obtain ⟨m₂, hw₂, hd⟩ := hpushes
  exact ⟨m₂, hw.trans hw₂, hd.after hkeeps (Nat.le_refl sp) hm₁.pc⟩

end Machine

/-! ## Expressions -/

namespace Syntax

/-- The machine stands at the code, with the stack and all the code needs. -/
structure Ready (b : Bindings) (view : View) (m : Machine) (sp : Nat) (code : List Instruction)
    (names : List String) (this : Bool) : Prop where
  height : Height m sp
  placed : Placed m.program m.pc code
  shows : Shows b view m sp names this
  room : Room code.length m

namespace Ready

variable {b : Bindings} {view : View} {m m₁ : Machine} {sp : Nat} {first rest : List Instruction}
  {names names' : List String} {this this' : Bool}

theorem mono (h : Ready b view m sp first names this) (hsub : ∀ name ∈ names', name ∈ names)
    (ht : this' = true → this = true) : Ready b view m sp first names' this' :=
  ⟨h.height, h.placed, h.shows.mono hsub ht, h.room⟩

theorem head (h : Ready b view m sp (first ++ rest) names this)
    (hsub : ∀ name ∈ names', name ∈ names) (ht : this' = true → this = true) :
    Ready b view m sp first names' this' where
  height := h.height
  placed := (placed_append.1 h.placed).1
  shows := h.shows.mono hsub ht
  room := h.room.of_le (by simp)

theorem tail (h : Ready b view m sp (first ++ rest) names this) {value : Word}
    (hw : Walk first.length m m₁) (hd : Delivers m sp first.length value m₁)
    (hsub : ∀ name ∈ names', name ∈ names) (ht : this' = true → this = true) :
    Ready b view m₁ (sp + 1) rest names' this' where
  height := hd.height
  placed := by
    rw [hd.keeps.program, hd.pc]
    exact (placed_append.1 h.placed).2
  shows := (h.shows.onward hd.keeps (by omega)).mono hsub ht
  room := by
    refine Room.of_walk (k := first.length) ?_ hw
    simpa using h.room

theorem instruction {i : Instruction} (h : Ready b view m sp (i :: rest) names this) :
    m.instruction? = some i := h.placed.1

end Ready

section Expressions

variable {b : Bindings} {view : View} {m : Machine} {sp : Nat} {names : List String} {this : Bool}

/-- The instruction pushes what it finds. -/
theorem Ready.attempt_push {segment : Segment} {index : Nat} {value : Word}
    (h : Ready b view m sp [.push segment index] names this)
    (hread : (readElement segment index).run m.next = .ok value m.next) :
    Attempt m 1 (.ok value) (Delivers m sp 1) :=
  Machine.attempt_push h.height h.instruction hread h.room

theorem Ready.attempt_read {name : String} (h : Ready b view m sp (b.read name) [name] this) :
    Attempt m (b.read name).length (view.named name) (Delivers m sp (b.read name).length) := by
  obtain ⟨s, hs, hv⟩ := h.shows.named name (by simp)
  have hcode : b.read name = [s.push] := by simp [Bindings.read, hs]
  rw [hcode] at h ⊢
  have hne := h.shows.stops name
  cases hval : view.named name with
  | ok value => exact h.attempt_push (hv value hval _ (extends_next m sp))
  | error reason =>
    cases reason with
    | divisionByZero => exact absurd hval hne
    | outside => trivial
    | foreign => trivial

/-- A value, and what an instruction makes of it. -/
theorem Ready.attempt_unary {op : UnaryOperator} {code : List Instruction} {x : Except Stop Word}
    (h : Ready b view m sp (code ++ [op.instruction]) names this)
    (hx : Attempt m code.length x (Delivers m sp code.length)) :
    Attempt m (code.length + 1) (do return op.apply (← x)) (Delivers m sp (code.length + 1)) := by
  refine hx.bind fun a m₁ hw hd => ?_
  have hr : Ready b view m₁ (sp + 1) [op.instruction] names this := h.tail hw hd (fun _ h => h) id
  have hop := Machine.attempt_unary (m := m₁) hr.height h.height.low hr.instruction hr.room
  rw [hd.top] at hop
  exact hop.imp fun v m₂ _ hd₂ => hd₂.after hd.keeps (Nat.le_refl sp) hd.pc

/-- The address of an element: where the array is, and the index from there. -/
theorem Ready.attempt_address {array : String} {code rest : List Instruction}
    {x : Except Stop Word}
    (h : Ready b view m sp (b.read array ++ (code ++ ([Operator.add.instruction] ++ rest)))
      (array :: names) this)
    (hx : ∀ {m₁}, Ready b view m₁ (sp + 1) code names this →
      Attempt m₁ code.length x (Delivers m₁ (sp + 1) code.length)) :
    Attempt m ((b.read array).length + (code.length + 1))
      (do return (← view.named array) + (← x))
      (Delivers m sp ((b.read array).length + (code.length + 1))) := by
  have hlow := h.height.low
  have hread : Ready b view m sp (b.read array) [array] this := h.head (by simp +contextual) id
  refine hread.attempt_read.bind fun base m₁ hw hd => ?_
  have h₁ := h.tail hw hd (fun _ h => h) id
  refine (hx (h₁.head (by simp +contextual) id)).bind fun offset m₂ hw₂ hd₂ => ?_
  have h₂ := h₁.tail hw₂ hd₂ (fun _ h => h) id
  have hadd := attempt_operator (m := m₂) h₂.height hlow h₂.placed.1 (h₂.room.of_le (by simp))
  rw [hd₂.top, hd₂.keeps.cells sp (by omega) (by omega) (.inl (by omega)), hd.top] at hadd
  exact hadd.imp fun address m₃ _ hd₃ =>
    (hd₃.after hd₂.keeps (Nat.le_succ sp) hd₂.pc).after hd.keeps (Nat.le_refl sp) hd.pc

mutual

theorem Term.attempt : ∀ (t : Term) {m : Machine} {sp : Nat}, t.Plain →
    (∀ n, Kind.integer n ∈ t.tokens → n ≤ 32767) →
    Ready b view m sp (t.code b) t.mentions t.usesThis →
    Attempt m (t.code b).length (t.value view) (Delivers m sp (t.code b).length)
  | .integer value, m, sp, _, hi, h => by
    refine h.attempt_push ?_
    have hle : value ≤ 32767 := hi value (by simp [Term.tokens])
    rw [← saturate_of_le hle]
    rfl
  | .true, m, sp, _, _, h => by
    have h' : Ready b view m sp ([.push .constant 1] ++ [UnaryOperator.negate.instruction]) []
      .false := h
    have hone : Ready b view m sp [.push .constant 1] [] .false := h'.head (by simp) (by simp)
    exact h'.attempt_unary (hone.attempt_push rfl)
  | .false, m, sp, _, _, h => h.attempt_push rfl
  | .null, m, sp, _, _, h => h.attempt_push rfl
  | .this, m, sp, _, _, h => by
    obtain ⟨segment, index, hthis⟩ : ∃ segment index, b.this = .push segment index := by
      simp only [Bindings.this]
      split <;> exact ⟨_, _, rfl⟩
    have h' : Ready b view m sp [.push segment index] [] .true := by
      rw [← hthis]
      exact h
    exact h'.attempt_push (h.shows.this rfl segment index hthis _ (extends_next m sp))
  | .group e, m, sp, hp, hi, h => e.attempt hp (fun n hn => hi n (by simp [Term.tokens, hn])) h
  | .unary op t, m, sp, hp, hi, h => by
    have ht := t.attempt hp (fun n hn => hi n (by simp [Term.tokens, hn]))
      (h.head (by simp [Term.mentions]) id)
    rw [Term.code, List.length_append]
    exact h.attempt_unary ht
  | .variable name, m, sp, _, _, h => h.attempt_read
  | .element array index, m, sp, hp, hi, h => by
    have h' : Ready b view m sp (b.read array ++ (index.code b ++
        ([Operator.add.instruction] ++ Compiler.loadElement))) (array :: index.mentions)
        index.usesThis := by
      simpa [Term.code, Term.mentions, Term.usesThis, Operator.instruction] using h
    have haddress := h'.attempt_address fun h₁ =>
      index.attempt hp (fun n hn => hi n (by simp [Term.tokens, hn])) h₁
    rw [show (Term.code b (.element array index)).length =
        (b.read array).length + ((index.code b).length + 1) + 2 by
      simp [Term.code, Compiler.loadElement]
      omega]
    simp only [Term.value]
    rw [show (do
        let base ← view.named array
        let offset ← index.value view
        view.element (base + offset)) =
      (do return (← view.named array) + (← index.value view)) >>= view.element by simp]
    refine haddress.bind fun address m₁ hw hd => ?_
    have hrest : Ready b view m (sp) ((b.read array ++ (index.code b ++
        [Operator.add.instruction])) ++ Compiler.loadElement) (array :: index.mentions)
        index.usesThis := by
      simpa using h'
    have hcode := (placed_append.1 hrest.placed).2
    cases hval : view.element address with
    | error reason =>
      cases reason with
      | divisionByZero => exact absurd hval (h'.shows.stops' address)
      | outside => trivial
      | foreign => trivial
    | ok value =>
      obtain ⟨ha, hv⟩ := (h'.shows.onward hd.keeps (Nat.le_refl sp)).element address value hval
      rw [← hd.top] at ha hv
      have hroom : Room 2 m₁ := Room.of_walk (h'.room.of_le (by simp [Compiler.loadElement]; omega)) hw
      have hload := attempt_loadElement hd.height h'.height.low
        (by simpa [hd.keeps.program, hd.pc] using hcode) ha hv hroom
      exact hload.imp fun v m₂ _ hd₂ => hd₂.after hd.keeps (Nat.le_refl sp) hd.pc

theorem Expression.attempt : ∀ (e : Expression) {m : Machine} {sp : Nat}, e.Plain →
    (∀ n, Kind.integer n ∈ e.tokens → n ≤ 32767) →
    Ready b view m sp (e.code b) e.mentions e.usesThis →
    Attempt m (e.code b).length (e.value view) (Delivers m sp (e.code b).length)
  | .term t, _, _, hp, hi, h => t.attempt hp hi h
  | .operation left op right, m, sp, hp, hi, h => by
    have h' : Ready b view m sp (left.code b ++ (right.code b ++ [op.instruction]))
        (left.mentions ++ right.mentions) (left.usesThis || right.usesThis) := by
      simpa [Expression.code, Expression.mentions, Expression.usesThis] using h
    have hl := left.attempt hp.1 (fun n hn => hi n (by simp [Expression.tokens, hn]))
      (h'.head (by simp +contextual) (by simp +contextual))
    rw [show (Expression.code b (.operation left op right)).length =
      (left.code b).length + ((right.code b).length + 1) by simp [Expression.code]]
    refine hl.bind fun a m₁ hw hd => ?_
    have h₁ := h'.tail hw hd (fun _ h => h) id
    have hr := right.attempt hp.2 (fun n hn => hi n (by simp [Expression.tokens, hn]))
      (h₁.head (by simp +contextual) (by simp +contextual))
    refine hr.bind fun c m₂ hw₂ hd₂ => ?_
    have h₂ := h₁.tail hw₂ hd₂ (fun _ h => h) id
    have hop := attempt_operator (m := m₂) h₂.height h'.height.low h₂.instruction h₂.room
    have hlow := h'.height.low
    rw [hd₂.top, hd₂.keeps.cells sp (by omega) (by omega) (.inl (by omega)), hd.top] at hop
    exact hop.imp fun v m₃ _ hd₃ =>
      (hd₃.after hd₂.keeps (Nat.le_succ sp) hd₂.pc).after hd.keeps (Nat.le_refl sp) hd.pc

end

end Expressions

end Syntax

end Jack

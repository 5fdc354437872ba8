import Jack.Machine.State
import Jack.Syntax.Lowering

/-!
# What statements mean

Expressions and statements have a meaning of their own, without code and without a stack: `value` of
an expression, in what can be seen of the variables and the heap, and `run` of a statement, which
changes the store. Arithmetic is that of words. A condition holds if its value has all bits set.
Calls and strings have no meaning here.

Every loop is left after `limit` rounds at the latest; a run that comes to its end does so under any
larger limit as well (`Block.run_of_le`).
-/

namespace Jack

open Machine (Word)

namespace Syntax

/-- Why something has no value. -/
inductive Stop
  | divisionByZero
  /-- An address outside the heap. -/
  | outside
  /-- A call, a string, or a variable that is not declared. -/
  | foreign
  deriving DecidableEq, Repr

/-! ## Expressions -/

/-- What an expression can see. -/
structure View where
  /-- The address of the current object. -/
  this : Word
  named : String → Except Stop Word
  /-- The element at an address. -/
  element : Word → Except Stop Word

def UnaryOperator.apply : UnaryOperator → Word → Word
  | negate, a => -a
  | complement, a => ~~~a

end Syntax

/-- There is no quotient by zero, and none of the least word by `-1`. A comparison that holds has all
bits set. -/
def Operator.apply : Operator → Word → Word → Except Syntax.Stop Word
  | add, a, b => .ok (a + b)
  | subtract, a, b => .ok (a - b)
  | multiply, a, b => .ok (a * b)
  | divide, a, b =>
    if b = 0 ∨ (a = -32768 ∧ b = -1) then .error .divisionByZero else .ok (a / b)
  | and, a, b => .ok (a &&& b)
  | or, a, b => .ok (a ||| b)
  | less, a, b => .ok (if a < b then -1 else 0)
  | greater, a, b => .ok (if b < a then -1 else 0)
  | equal, a, b => .ok (if a = b then -1 else 0)

namespace Syntax

mutual

def Term.value (view : View) : Term → Except Stop Word
  | .integer value => .ok (Int16.ofNat value)
  | .string _ => .error .foreign
  | .true => .ok (-1)
  | .false => .ok 0
  | .null => .ok 0
  | .this => .ok view.this
  | .group e => e.value view
  | .unary op t => do return op.apply (← t.value view)
  | .variable name => view.named name
  | .element array index => do
    let base ← view.named array
    let offset ← index.value view
    view.element (base + offset)
  | .call _ => .error .foreign

def Expression.value (view : View) : Expression → Except Stop Word
  | .term t => t.value view
  | .operation left op right => do
    let a ← left.value view
    let b ← right.value view
    op.apply a b

end

/-! ## Stores -/

/-- What the variables and the cells of the heap hold. -/
structure Store where
  this : Word
  /-- The variables that are no fields. -/
  values : String → Word
  heap : Nat → Word

namespace Store

variable (b : Bindings) (σ : Store)

/-- The cell of the heap at an address. -/
def cell (address : Int) : Except Stop Nat :=
  if 2048 ≤ address ∧ address < 32768 then .ok address.toNat else .error .outside

def load (address : Int) : Except Stop Word := do return σ.heap (← cell address)

def store (address : Int) (value : Word) : Except Stop Store := do
  let place ← cell address
  return { σ with heap := fun a => if a = place then value else σ.heap a }

/-- A field lies at its index from the address of the object; no object has a negative address. -/
def field (index : Nat) : Int := if σ.this < 0 then -1 else σ.this.toInt + index

def read (name : String) : Except Stop Word :=
  match b.resolve name with
  | none => .error .foreign
  | some s => if s.kind = .field then σ.load (σ.field s.index) else .ok (σ.values name)

def write (name : String) (value : Word) : Except Stop Store :=
  match b.resolve name with
  | none => .error .foreign
  | some s =>
    if s.kind = .field then σ.store (σ.field s.index) value
    else .ok { σ with values := fun x => if x = name then value else σ.values x }

def view : View where
  this := σ.this
  named := σ.read b
  element address := σ.load address.toInt

end Store

/-! ## Statements -/

inductive Outcome
  | done (σ : Store)
  | returned (value : Option Word) (σ : Store)
  | stopped (reason : Stop)
  /-- A loop has not ended within the limit. -/
  | unfinished

namespace Outcome

def andThen : Outcome → (Store → Outcome) → Outcome
  | done σ, next => next σ
  | o, _ => o

/-- Goes on with a value. -/
def withValue {α : Type} : Except Stop α → (α → Outcome) → Outcome
  | .ok a, next => next a
  | .error reason, _ => stopped reason

/-- Goes on with the first way if the condition holds. -/
def choose (condition : Except Stop Word) (first second : Outcome) : Outcome :=
  withValue condition fun v => if v = -1 then first else second

/-- A loop of at most so many rounds. -/
def iterate (condition : Store → Except Stop Word) (body : Store → Outcome) : Nat → Store → Outcome
  | 0, _ => unfinished
  | rounds + 1, σ =>
    choose (condition σ) ((body σ).andThen (iterate condition body rounds)) (done σ)

end Outcome

open Outcome

mutual

def Statement.run (b : Bindings) (limit : Nat) : Statement → Store → Outcome
  | .assign name value, σ => withValue (do σ.write b name (← value.value (σ.view b))) done
  | .assignElement array index value, σ =>
    withValue (do
      let base ← σ.read b array
      let offset ← index.value (σ.view b)
      let v ← value.value (σ.view b)
      σ.store (base + offset).toInt v) done
  | .conditional condition body, σ =>
    choose (condition.value (σ.view b)) (body.run b limit σ) (done σ)
  | .alternative condition body otherwise, σ =>
    choose (condition.value (σ.view b)) (body.run b limit σ) (otherwise.run b limit σ)
  | .loop condition body, σ =>
    iterate (fun σ => condition.value (σ.view b)) (body.run b limit) limit σ
  | .call _, _ => stopped .foreign
  | .giveBack none, σ => returned none σ
  | .giveBack (some value), σ =>
    withValue (value.value (σ.view b)) fun v => returned (some v) σ

def Block.run (b : Bindings) (limit : Nat) : Block → Store → Outcome
  | .nil, σ => done σ
  | .cons first rest, σ => (first.run b limit σ).andThen (rest.run b limit)

end

/-! ## A larger limit -/

/-- The second outcome is the first one, unless that was cut off. -/
def Outcome.Refines (o o' : Outcome) : Prop := o = unfinished ∨ o' = o

theorem andThen_refines {o o' : Outcome} {next next' : Store → Outcome} (h : o.Refines o')
    (hn : ∀ σ, (next σ).Refines (next' σ)) : (o.andThen next).Refines (o'.andThen next') := by
  rcases h with rfl | rfl
  · exact .inl rfl
  · cases o' with
    | done σ => exact hn σ
    | _ => exact .inr rfl

theorem choose_refines {condition : Except Stop Word} {first first' second second' : Outcome}
    (h : first.Refines first') (h' : second.Refines second') :
    (choose condition first second).Refines (choose condition first' second') := by
  rcases condition with reason | v
  · exact .inr rfl
  · simp only [choose, withValue]
    split
    · exact h
    · exact h'

theorem iterate_refines {condition : Store → Except Stop Word} {body body' : Store → Outcome}
    (hb : ∀ σ, (body σ).Refines (body' σ)) {rounds rounds' : Nat} (h : rounds ≤ rounds') (σ : Store) :
    (iterate condition body rounds σ).Refines (iterate condition body' rounds' σ) := by
  induction rounds generalizing rounds' σ with
  | zero => exact .inl rfl
  | succ rounds ih =>
    obtain ⟨k, rfl⟩ := Nat.exists_eq_add_of_le' (Nat.zero_lt_of_lt h)
    exact choose_refines (andThen_refines (hb σ) (ih (by omega))) (.inr rfl)

section Limit

variable {limit limit' : Nat}

mutual

theorem Statement.run_refines (b : Bindings) (h : limit ≤ limit') :
    ∀ (st : Statement) (σ : Store), (st.run b limit σ).Refines (st.run b limit' σ)
  | .assign .., _ | .assignElement .., _ | .call _, _ | .giveBack none, _
  | .giveBack (some _), _ => .inr rfl
  | .conditional _ body, σ => choose_refines (body.run_refines b h σ) (.inr rfl)
  | .alternative _ body otherwise, σ =>
    choose_refines (body.run_refines b h σ) (otherwise.run_refines b h σ)
  | .loop _ body, σ => iterate_refines (body.run_refines b h) h σ

theorem Block.run_refines (b : Bindings) (h : limit ≤ limit') :
    ∀ (body : Block) (σ : Store), (body.run b limit σ).Refines (body.run b limit' σ)
  | .nil, _ => .inr rfl
  | .cons first rest, σ => andThen_refines (first.run_refines b h σ) (rest.run_refines b h)

end

/-- A run that was not cut off stays as it is. -/
theorem Block.run_of_le {b : Bindings} {body : Block} {σ : Store} (h : limit ≤ limit')
    (hne : body.run b limit σ ≠ unfinished) : body.run b limit' σ = body.run b limit σ :=
  (body.run_refines b h σ).resolve_left hne

/-- Under any limit a run comes to the same end, or to none. -/
theorem Block.run_eq_or_unfinished {b : Bindings} {body : Block} {σ : Store}
    (hne : body.run b limit σ ≠ unfinished) (limit' : Nat) :
    body.run b limit' σ = body.run b limit σ ∨ body.run b limit' σ = unfinished := by
  rcases Nat.le_total limit limit' with hle | hle
  · exact .inl (run_of_le hle hne)
  · exact (body.run_refines b hle σ).symm.imp_left Eq.symm

end Limit

/-! ## What is evaluated -/

mutual

/-- The current object is read. -/
def Term.usesThis : Term → Bool
  | .this => .true
  | .group e => e.usesThis
  | .unary _ t => t.usesThis
  | .element _ index => index.usesThis
  | _ => .false

def Expression.usesThis : Expression → Bool
  | .term t => t.usesThis
  | .operation left _ right => left.usesThis || right.usesThis

end

mutual

/-- There is neither a call nor a string in the term. -/
def Term.Plain : Term → Prop
  | .string _ | .call _ => False
  | .group e => e.Plain
  | .unary _ t => t.Plain
  | .element _ index => index.Plain
  | _ => True

def Expression.Plain : Expression → Prop
  | .term t => t.Plain
  | .operation left _ right => left.Plain ∧ right.Plain

end

mutual

def Statement.Plain : Statement → Prop
  | .assign _ value => value.Plain
  | .assignElement _ index value => index.Plain ∧ value.Plain
  | .conditional condition body => condition.Plain ∧ body.Plain
  | .alternative condition body otherwise => condition.Plain ∧ body.Plain ∧ otherwise.Plain
  | .loop condition body => condition.Plain ∧ body.Plain
  | .call _ => False
  | .giveBack none => True
  | .giveBack (some value) => value.Plain

def Block.Plain : Block → Prop
  | .nil => True
  | .cons first rest => first.Plain ∧ rest.Plain

end

/-- The last statement is a `return`. -/
def Block.EndsInReturn : Block → Prop
  | .nil => False
  | .cons (.giveBack _) .nil => True
  | .cons _ rest => rest.EndsInReturn

/-- Behind a `return` nothing is left to be done. -/
theorem Block.run_ne_done {b : Bindings} {limit : Nat} :
    ∀ {body : Block} {σ σ' : Store}, body.EndsInReturn → body.run b limit σ ≠ done σ'
  | .cons (.giveBack value) .nil, σ, σ', _, h => by
    cases value with
    | none => simp [Block.run, Statement.run, andThen] at h
    | some e =>
      simp only [Block.run, Statement.run] at h
      cases hv : e.value (σ.view b) <;> simp [hv, withValue, andThen] at h
  | .cons st (.cons st' rest), σ, σ', hr, h => by
    have hr' : (Block.cons st' rest).EndsInReturn := by
      cases st <;> exact hr
    rw [Block.run] at h
    cases hst : st.run b limit σ with
    | done σ₁ =>
      rw [hst] at h
      exact run_ne_done hr' h
    | _ =>
      rw [hst] at h
      simp [andThen] at h

/-! ## Nothing foreign -/

theorem bind_ne_error {α β ε : Type} {x : Except ε α} {f : α → Except ε β} {e : ε}
    (h : x ≠ .error e) (hf : ∀ a, f a ≠ .error e) : x >>= f ≠ .error e := by
  cases x with
  | error e' => exact fun heq => h (by cases heq; rfl)
  | ok a => exact hf a

theorem cell_ne_foreign (address : Int) : Store.cell address ≠ .error .foreign := by
  unfold Store.cell
  split <;> simp

mutual

theorem Term.value_ne_foreign {view : View} (he : ∀ address, view.element address ≠ .error .foreign) :
    ∀ t : Term, t.Plain → (∀ name ∈ t.mentions, view.named name ≠ .error .foreign) →
      t.value view ≠ .error .foreign
  | .integer _, _, _ | .true, _, _ | .false, _, _ | .null, _, _ | .this, _, _ => by simp [Term.value]
  | .group e, hp, hn => e.value_ne_foreign he hp hn
  | .unary op t, hp, hn =>
    bind_ne_error (t.value_ne_foreign he hp hn) (by simp [pure, Except.pure])
  | .variable name, _, hn => hn name (by simp [Term.mentions])
  | .element array index, hp, hn =>
    bind_ne_error (hn array (by simp [Term.mentions])) fun base =>
      bind_ne_error
        (index.value_ne_foreign he hp fun name h => hn name (by simp [Term.mentions, h]))
        fun offset => he (base + offset)

theorem Expression.value_ne_foreign {view : View}
    (he : ∀ address, view.element address ≠ .error .foreign) :
    ∀ e : Expression, e.Plain → (∀ name ∈ e.mentions, view.named name ≠ .error .foreign) →
      e.value view ≠ .error .foreign
  | .term t, hp, hn => t.value_ne_foreign he hp hn
  | .operation left op right, hp, hn =>
    bind_ne_error
      (left.value_ne_foreign he hp.1 fun name h => hn name (by simp [Expression.mentions, h]))
      fun a => bind_ne_error
        (right.value_ne_foreign he hp.2 fun name h => hn name (by simp [Expression.mentions, h]))
        fun c => by
          cases op <;> simp only [Operator.apply, ne_eq, reduceCtorEq, not_false_eq_true]
          split <;> simp

end

theorem withValue_ne_foreign {α : Type} {x : Except Stop α} {next : α → Outcome}
    (h : x ≠ .error .foreign) (hn : ∀ a, next a ≠ stopped .foreign) :
    withValue x next ≠ stopped .foreign := by
  cases x with
  | error reason => simpa [withValue] using h
  | ok a => exact hn a

theorem choose_ne_foreign {condition : Except Stop Word} {first second : Outcome}
    (h : condition ≠ .error .foreign) (hf : first ≠ stopped .foreign)
    (hs : second ≠ stopped .foreign) : choose condition first second ≠ stopped .foreign :=
  withValue_ne_foreign h fun v => by split <;> assumption

theorem andThen_ne_foreign {o : Outcome} {next : Store → Outcome} (h : o ≠ stopped .foreign)
    (hn : ∀ σ, next σ ≠ stopped .foreign) : o.andThen next ≠ stopped .foreign := by
  cases o with
  | done σ => exact hn σ
  | _ => exact h

theorem iterate_ne_foreign {condition : Store → Except Stop Word} {body : Store → Outcome}
    (hc : ∀ σ, condition σ ≠ .error .foreign) (hb : ∀ σ, body σ ≠ stopped .foreign) (rounds : Nat)
    (σ : Store) : iterate condition body rounds σ ≠ stopped .foreign := by
  induction rounds generalizing σ with
  | zero => simp [iterate]
  | succ rounds ih =>
    exact choose_ne_foreign (hc σ) (andThen_ne_foreign (hb σ) ih) (by simp)

namespace Store

variable {b : Bindings} {σ : Store}

theorem load_ne_foreign (address : Int) : σ.load address ≠ .error .foreign :=
  bind_ne_error (cell_ne_foreign address) (by simp [pure, Except.pure])

theorem store_ne_foreign (address : Int) (value : Word) : σ.store address value ≠ .error .foreign :=
  bind_ne_error (cell_ne_foreign address) (by simp [pure, Except.pure])

theorem read_ne_foreign {name : String} (h : b.Declares name) : σ.read b name ≠ .error .foreign := by
  obtain ⟨s, hs⟩ := Option.isSome_iff_exists.1 h
  simp only [read, hs]
  split
  · exact load_ne_foreign _
  · simp

theorem write_ne_foreign {name : String} (h : b.Declares name) (value : Word) :
    σ.write b name value ≠ .error .foreign := by
  obtain ⟨s, hs⟩ := Option.isSome_iff_exists.1 h
  simp only [write, hs]
  split
  · exact store_ne_foreign _ _
  · simp

theorem value_ne_foreign {e : Expression} (hp : e.Plain) (h : ∀ name ∈ e.mentions, b.Declares name) :
    e.value (σ.view b) ≠ .error .foreign :=
  e.value_ne_foreign (fun _ => load_ne_foreign _) hp fun name hn => read_ne_foreign (h name hn)

end Store

section Foreign

variable {b : Bindings} {limit : Nat}

mutual

theorem Statement.run_ne_foreign : ∀ (st : Statement) (σ : Store), st.Plain →
    (∀ name ∈ st.mentions, b.Declares name) → st.run b limit σ ≠ stopped .foreign
  | .assign name value, σ, hp, hd =>
    withValue_ne_foreign
      (bind_ne_error (Store.value_ne_foreign hp fun n h => hd n (by simp [Statement.mentions, h]))
        fun v => Store.write_ne_foreign (hd name (by simp [Statement.mentions])) v) (by simp)
  | .assignElement array index value, σ, hp, hd =>
    withValue_ne_foreign
      (bind_ne_error (Store.read_ne_foreign (hd array (by simp [Statement.mentions]))) fun base =>
        bind_ne_error
          (Store.value_ne_foreign hp.1 fun n h => hd n (by simp [Statement.mentions, h]))
          fun offset => bind_ne_error
            (Store.value_ne_foreign hp.2 fun n h => hd n (by simp [Statement.mentions, h]))
            fun v => Store.store_ne_foreign _ v) (by simp)
  | .conditional condition body, σ, hp, hd =>
    choose_ne_foreign (Store.value_ne_foreign hp.1 fun n h => hd n (by simp [Statement.mentions, h]))
      (body.run_ne_foreign σ hp.2 fun n h => hd n (by simp [Statement.mentions, h])) (by simp)
  | .alternative condition body otherwise, σ, hp, hd =>
    choose_ne_foreign (Store.value_ne_foreign hp.1 fun n h => hd n (by simp [Statement.mentions, h]))
      (body.run_ne_foreign σ hp.2.1 fun n h => hd n (by simp [Statement.mentions, h]))
      (otherwise.run_ne_foreign σ hp.2.2 fun n h => hd n (by simp [Statement.mentions, h]))
  | .loop condition body, σ, hp, hd =>
    iterate_ne_foreign
      (fun _ => Store.value_ne_foreign hp.1 fun n h => hd n (by simp [Statement.mentions, h]))
      (fun σ => body.run_ne_foreign σ hp.2 fun n h => hd n (by simp [Statement.mentions, h])) limit σ
  | .giveBack none, _, _, _ => by simp [Statement.run]
  | .giveBack (some value), σ, hp, hd =>
    withValue_ne_foreign (Store.value_ne_foreign hp fun n h => hd n (by simp [Statement.mentions, h]))
      (by simp)

theorem Block.run_ne_foreign : ∀ (body : Block) (σ : Store), body.Plain →
    (∀ name ∈ body.mentions, b.Declares name) → body.run b limit σ ≠ stopped .foreign
  | .nil, _, _, _ => by simp [Block.run]
  | .cons first rest, σ, hp, hd =>
    andThen_ne_foreign (first.run_ne_foreign σ hp.1 fun n h => hd n (by simp [Block.mentions, h]))
      fun σ => rest.run_ne_foreign σ hp.2 fun n h => hd n (by simp [Block.mentions, h])

end

end Foreign

end Syntax

end Jack

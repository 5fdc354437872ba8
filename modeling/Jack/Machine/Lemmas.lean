import Jack.Machine.State

/-!
# What the memory operations do

Each operation on cells, registers and the stack, as the result and the machine it leaves. A
computation of several parts is taken apart by `run_bind`.
-/

namespace Jack.Machine

variable {α β : Type}

theorem run_bind (x : Exec α) (f : α → Exec β) (m : Machine) :
    (x >>= f).run m = match x.run m with
      | .ok a m' => (f a).run m'
      | .error e m' => .error e m' := by
  simp only [EStateM.run, bind, EStateM.bind]
  cases x m <;> rfl

@[simp] theorem run_pure (a : α) (m : Machine) : (pure a : Exec α).run m = .ok a m := rfl

@[simp] theorem run_throw (f : Fault) (m : Machine) : (throw f : Exec α).run m = .error f m := rfl

@[simp] theorem run_get (m : Machine) : (get : Exec Machine).run m = .ok m m := rfl

@[simp] theorem run_set (m m' : Machine) : (set m' : Exec PUnit).run m = .ok ⟨⟩ m' := rfl

@[simp] theorem run_modify (f : Machine → Machine) (m : Machine) :
    (modify f : Exec PUnit).run m = .ok ⟨⟩ (f m) := rfl

/-! ## Cells and registers -/

theorem run_cell {a : Nat} (m : Machine) (h : a < ramSize) :
    (cell a).run m = .ok (m.word a) m := by
  simp only [cell, if_pos h, run_bind, run_get, run_pure]

theorem run_setCell {a : Nat} (m : Machine) (value : Word) (h : a < ramSize) :
    (setCell a value).run m = .ok () (m.put a value) := by
  simp only [setCell, if_pos h, run_modify]

@[simp] theorem run_register (r : Register) (m : Machine) :
    (register r).run m = .ok (m.word r.address) m := run_cell m r.address_lt

@[simp] theorem run_setRegister (r : Register) (value : Word) (m : Machine) :
    (setRegister r value).run m = .ok () (m.put r.address value) :=
  run_setCell m value r.address_lt

theorem run_address {w : Word} (m : Machine) (h : 0 ≤ w) :
    (address w).run m = .ok w.toNatClampNeg m := by
  have : ¬ w < 0 := Int16.not_lt.2 h
  simp only [address, if_neg this, run_pure]

theorem run_address_of_neg {w : Word} (m : Machine) (h : w < 0) :
    (address w).run m = .error (.invalidAddress w.toInt) m := by
  simp only [address, if_pos h, run_throw]

/-! ## The stack -/

theorem run_push {m : Machine} (value : Word) (h : (m.word 0).toInt.natAbs < ramSize)
    (h' : m.word 0 ≠ 32767) :
    (push value).run m =
      .ok () ((m.put (m.word 0).toInt.natAbs value).put 0 (m.word 0 + 1)) := by
  simp only [push, run_bind, run_register, Register.address, run_setCell m value h, if_neg h',
    run_setRegister]

theorem run_pop {m : Machine} {top : Nat} (h : m.word 0 ≠ -32768)
    (ht : (address (m.word 0 - 1)).run m = .ok top m) (htop : top < ramSize) :
    pop.run m = .ok ((m.put 0 (saturate top)).word top) (m.put 0 (saturate top)) := by
  simp only [pop, run_bind, run_register, Register.address, if_neg h, ht, run_setRegister,
    run_cell _ htop]

end Jack.Machine

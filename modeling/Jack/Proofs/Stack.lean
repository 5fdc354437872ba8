import Jack.Machine.Lemmas
import Jack.Machine.Step

/-!
# Working on the stack

As long as the stack pointer is the word of a number that leaves room, the operations on the stack
are exact: `m.pushed sp v` is the machine with `v` on top of `sp` cells, `m.lowered sp` the one with
nothing above them (`run_push_of_room`, `run_pop_of_pushed`, `run_binary`, `run_pushLocals`). The
segments that begin where a register points are read and written through it.
-/

namespace Jack.Machine

/-! ## Words of numbers -/

section Words

variable {n k : Nat}

theorem saturate_of_le (h : n ≤ 32767) : saturate n = Int16.ofNat n := by
  rw [saturate, Nat.min_eq_left h]

theorem toInt_saturate (h : n ≤ 32767) : (saturate n).toInt = n := by
  rw [saturate_of_le h, Int16.toInt_ofNat_of_lt (by omega)]

theorem toNatClampNeg_saturate (h : n ≤ 32767) : (saturate n).toNatClampNeg = n := by
  rw [saturate_of_le h, Int16.toNatClampNeg_ofNat_of_lt (by omega)]

theorem saturate_nonneg (n : Nat) : 0 ≤ saturate n :=
  Int16.zero_le_ofNat_of_lt (by omega)

theorem saturate_inj (hn : n ≤ 32767) (hk : k ≤ 32767) (h : saturate n = saturate k) : n = k := by
  have := congrArg Int16.toInt h
  rw [toInt_saturate hn, toInt_saturate hk] at this
  omega

theorem saturate_add (h : n + k ≤ 32767) : saturate n + saturate k = saturate (n + k) := by
  rw [saturate_of_le h, saturate_of_le (by omega), saturate_of_le (by omega), Int16.ofNat_add]

theorem saturate_sub (hk : k ≤ n) (hn : n ≤ 32767) : saturate n - saturate k = saturate (n - k) := by
  rw [saturate_of_le hn, saturate_of_le (by omega), saturate_of_le (by omega),
    Int16.ofNat_sub n k hk]

theorem saturate_succ (h : n < 32767) : saturate n + 1 = saturate (n + 1) :=
  saturate_add (k := 1) (by omega)

theorem saturate_succ_sub (h : n < 32767) : saturate (n + 1) - 1 = saturate n :=
  saturate_sub (k := 1) (by omega) (by omega)

theorem saturate_ne_minimum (n : Nat) : saturate n ≠ -32768 := by
  intro h
  have := saturate_nonneg n
  rw [h] at this
  exact absurd this (by decide)

theorem exists_saturate {w : Word} (h : 0 ≤ w) : ∃ n ≤ 32767, w = saturate n := by
  have hlt := w.toNatClampNeg_lt
  exact ⟨w.toNatClampNeg, by omega, by
    rw [saturate_of_le (by omega), Int16.ofNat_toNatClampNeg w h]⟩

end Words

variable {m : Machine}

/-! ## Cells -/

theorem word_put_of_lt {a : Nat} (other : Nat) (value : Word) (h : a ≤ 32767) :
    (m.put a value).word other = if a = other then value else m.word other :=
  word_put m other value (by simp only [ramSize]; omega)

/-- Before the first run every cell is zero but the stack pointer. -/
theorem word_ofProgram {p : Program} (a : Nat) :
    (ofProgram p).word a = if a = 0 then saturate 256 else 0 := by
  simp only [ofProgram, word, Vector.getElem?_setIfInBounds, Vector.getElem?_replicate,
    Register.address, stackBase]
  grind [ramSize]

@[simp] theorem put_put (m : Machine) (a : Nat) (v w : Word) :
    (m.put a v).put a w = m.put a w := by
  simp [put]

theorem put_comm {a b : Nat} (v w : Word) (h : a ≠ b) :
    (m.put a v).put b w = (m.put b w).put a v := by
  simp only [put]
  congr 1
  ext i hi
  grind

/-- The machine with nothing above the first cells. -/
def lowered (m : Machine) (sp : Nat) : Machine := m.put 0 (saturate sp)

/-- The machine with one value above the first cells. -/
def pushed (m : Machine) (sp : Nat) (value : Word) : Machine := (m.put sp value).lowered (sp + 1)

theorem word_lowered (sp a : Nat) :
    (m.lowered sp).word a = if a = 0 then saturate sp else m.word a := by
  rw [lowered, word_put_of_lt _ _ (by omega)]
  simp only [eq_comm]

theorem word_pushed {sp : Nat} (a : Nat) (value : Word) (h : sp ≤ 32767) :
    (m.pushed sp value).word a =
      if a = 0 then saturate (sp + 1) else if a = sp then value else m.word a := by
  rw [pushed, word_lowered, word_put_of_lt _ _ h]
  simp only [eq_comm]

@[simp] theorem lowered_lowered (m : Machine) (sp sp' : Nat) :
    (m.lowered sp).lowered sp' = m.lowered sp' := put_put ..

theorem lowered_pushed {sp sp' : Nat} (value : Word) (h : sp' ≠ 0) :
    (m.lowered sp).pushed sp' value = m.pushed sp' value := by
  simp only [pushed, lowered]
  rw [put_comm _ _ (Ne.symm h), put_put]

@[simp] theorem program_put (m : Machine) (a : Nat) (v : Word) : (m.put a v).program = m.program := rfl
@[simp] theorem statics_put (m : Machine) (a : Nat) (v : Word) : (m.put a v).statics = m.statics := rfl
@[simp] theorem frames_put (m : Machine) (a : Nat) (v : Word) : (m.put a v).frames = m.frames := rfl
@[simp] theorem function_put (m : Machine) (a : Nat) (v : Word) :
    (m.put a v).function = m.function := rfl
@[simp] theorem pc_put (m : Machine) (a : Nat) (v : Word) : (m.put a v).pc = m.pc := rfl
@[simp] theorem heapEnd_put (m : Machine) (a : Nat) (v : Word) : (m.put a v).heapEnd = m.heapEnd := rfl

/-! ## Pushing and popping -/

variable {sp : Nat}

theorem run_push_of_room (value : Word) (hsp : m.word 0 = saturate sp) (h : sp < 32767) :
    (push value).run m = .ok () (m.pushed sp value) := by
  have htop : (m.word 0).toInt.natAbs = sp := by
    rw [hsp, toInt_saturate (by omega), Int.natAbs_natCast]
  rw [run_push value (by rw [htop]; simp only [ramSize]; omega), htop, hsp, saturate_succ h]
  · rfl
  · rw [hsp]
    intro hmax
    have := saturate_inj (k := 32767) (by omega) (by omega) (hmax.trans (by decide))
    omega

theorem run_address_saturate {n : Nat} (m : Machine) (h : n ≤ 32767) :
    (address (saturate n)).run m = .ok n m := by
  rw [run_address m (saturate_nonneg n), toNatClampNeg_saturate h]

theorem run_pop_of_pushed (hsp : m.word 0 = saturate (sp + 1)) (h : sp < 32767) (hpos : 0 < sp) :
    pop.run m = .ok (m.word sp) (m.lowered sp) := by
  have htop : (address (m.word 0 - 1)).run m = .ok sp m := by
    rw [hsp, saturate_succ_sub h]
    exact run_address_saturate m (by omega)
  have hne : m.word 0 ≠ -32768 := hsp ▸ saturate_ne_minimum _
  rw [run_pop hne htop (by simp only [ramSize]; omega), ← lowered, word_lowered, if_neg (by omega)]

theorem run_unary (f : Word → Word) (hsp : m.word 0 = saturate (sp + 1)) (h : sp < 32767)
    (hpos : 0 < sp) : (unary f).run m = .ok () (m.pushed sp (f (m.word sp))) := by
  simp only [unary, run_bind, run_pop_of_pushed hsp h hpos]
  rw [run_push_of_room _ (by rw [word_lowered, if_pos rfl]) h, lowered_pushed _ (by omega)]

theorem run_binary (f : Word → Word → Word) (hsp : m.word 0 = saturate (sp + 2)) (h : sp + 1 < 32767)
    (hpos : 0 < sp) :
    (binary f).run m = .ok () (m.pushed sp (f (m.word sp) (m.word (sp + 1)))) := by
  have hlow : (m.lowered (sp + 1)).word 0 = saturate (sp + 1) := by rw [word_lowered, if_pos rfl]
  simp only [binary, run_bind, run_pop_of_pushed hsp h (by omega),
    run_pop_of_pushed hlow (by omega) hpos, lowered_lowered, word_lowered, if_neg (by omega : sp ≠ 0)]
  rw [run_push_of_room _ (by rw [word_lowered, if_pos rfl]) (by omega), lowered_pushed _ (by omega)]

/-- The machine with zeros above the first cells. -/
def cleared (m : Machine) (sp : Nat) : Nat → Machine
  | 0 => m
  | count + 1 => (m.pushed sp 0).cleared (sp + 1) count

theorem run_pushLocals {count : Nat} (hsp : m.word 0 = saturate sp) (h : sp + count ≤ 32767) :
    (pushLocals count).run m = .ok () (m.cleared sp count) := by
  induction count generalizing m sp with
  | zero => rfl
  | succ count ih =>
    have hnext : (m.pushed sp 0).word 0 = saturate (sp + 1) := by
      rw [word_pushed _ _ (by omega), if_pos rfl]
    simp only [pushLocals, run_bind, run_push_of_room 0 hsp (by omega), ih hnext (by omega), cleared]

/-- Clearing more cells than there is room for fails. -/
theorem le_of_run_pushLocals {count : Nat} {m' : Machine} (hsp : m.word 0 = saturate sp)
    (hle : sp ≤ 32767) (h : (pushLocals count).run m = .ok () m') : sp + count ≤ 32767 := by
  induction count generalizing m sp with
  | zero => exact hle
  | succ count ih =>
    rcases Nat.lt_or_ge sp 32767 with hlt | hge
    · simp only [pushLocals, run_bind, run_push_of_room 0 hsp hlt] at h
      have := ih (by rw [word_pushed _ _ hle, if_pos rfl]) hlt h
      omega
    · obtain rfl : sp = 32767 := by omega
      have htop : (m.word 0).toInt.natAbs = 32767 := by
        rw [hsp, toInt_saturate hle, Int.natAbs_natCast]
      have hmax : m.word 0 = 32767 := hsp
      simp only [pushLocals, push, run_bind, run_register, Register.address, htop] at h
      rw [run_setCell _ _ (by decide)] at h
      simp [hmax] at h

theorem word_cleared {count : Nat} (a : Nat) (hpos : 0 < sp) (hsp : m.word 0 = saturate sp)
    (h : sp + count ≤ 32767) :
    (m.cleared sp count).word a = if a = 0 then saturate (sp + count)
      else if sp ≤ a ∧ a < sp + count then 0 else m.word a := by
  induction count generalizing m sp with
  | zero =>
    simp only [cleared, Nat.add_zero]
    grind
  | succ count ih =>
    rw [cleared, ih (by omega) (by rw [word_pushed _ _ (by omega), if_pos rfl]) (by omega),
      word_pushed _ _ (by omega)]
    grind

/-- Clearing changes nothing but the memory. -/
theorem cleared_eq (m : Machine) (sp count : Nat) :
    m.cleared sp count = { m with ram := (m.cleared sp count).ram } := by
  induction count generalizing m sp with
  | zero => rfl
  | succ count ih =>
    rw [cleared, ih]
    rfl

end Jack.Machine

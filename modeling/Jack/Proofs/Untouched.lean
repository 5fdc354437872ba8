import Jack.Proofs.Levels

/-!
# What a step leaves untouched

Below the locals a step writes nowhere but where it pops to (`Instruction.Avoids`). All other cells
there are as they were behind the step (`Level.holds`), and the stack still ends above the locals, even
where the step fails.
-/

namespace Jack

open Machine

/-- The instruction does not pop to the cell, with the arguments there. -/
def Instruction.Avoids (a arg : Nat) : Instruction → Prop
  | .pop .pointer index => a ≠ pointerBase + index
  | .pop .temp index => a ≠ tempBase + index
  | .pop .arguments index => a ≠ arg + index
  | _ => True

theorem Instruction.avoids_of_ne {a arg : Nat} {i : Instruction}
    (hpointer : ∀ index, i = .pop .pointer index → a ≠ pointerBase + index)
    (htemp : ∀ index, i = .pop .temp index → a ≠ tempBase + index)
    (hargument : ∀ index, i = .pop .arguments index → a ≠ arg + index) : i.Avoids a arg := by
  cases i with
  | pop segment index =>
    cases segment with
    | pointer => exact hpointer index rfl
    | temp => exact htemp index rfl
    | arguments => exact hargument index rfl
    | _ => trivial
  | _ => trivial

/-- Nothing is popped to the registers that say where the activation stands. -/
theorem Instruction.avoids_of_lt {a arg : Nat} (i : Instruction) (ha : a < pointerBase)
    (harg : a < arg) : i.Avoids a arg := by
  simp only [pointerBase] at ha
  refine avoids_of_ne (fun index _ => ?_) (fun index _ => ?_) fun index _ => by omega
  · simp only [pointerBase]
    omega
  · simp only [tempBase]
    omega

namespace Machine

variable {α β : Type} {a b base n n' k low : Nat} {w : Word} {m m' : Machine}

/-! ## Cells below the stack -/

/-- The cell holds the word, and the stack ends no lower than there. -/
structure Holds (a : Nat) (w : Word) (low : Nat) (m : Machine) : Prop where
  cell : m.word a = w
  stack : ∃ sp, low ≤ sp ∧ sp ≤ 32767 ∧ m.word 0 = saturate sp
  heap : heapBase ≤ m.heapEnd

namespace Holds

theorem mono (h : Holds a w k m) (hle : n ≤ k) : Holds a w n m := by
  obtain ⟨sp, hk, hsp⟩ := h.stack
  exact ⟨h.cell, ⟨sp, Nat.le_trans hle hk, hsp⟩, h.heap⟩

theorem put (h : Holds a w n m) (value : Word) (h0 : b ≠ 0) (hne : b ≠ a) (hle : b ≤ 32767) :
    Holds a w n (m.put b value) := by
  obtain ⟨sp, hn, hsp, hword⟩ := h.stack
  refine ⟨?_, ⟨sp, hn, hsp, ?_⟩, h.heap⟩
  · rw [word_put_of_lt _ _ hle, if_neg hne, h.cell]
  · rw [word_put_of_lt _ _ hle, if_neg h0, hword]

theorem lowered {sp : Nat} (h : Holds a w n m) (ha : 0 < a) (hn : n' ≤ sp) (hle : sp ≤ 32767) :
    Holds a w n' (m.lowered sp) := by
  refine ⟨?_, ⟨sp, hn, hle, ?_⟩, h.heap⟩
  · rw [word_lowered, if_neg (by omega), h.cell]
  · rw [word_lowered, if_pos rfl]

end Holds

/-- Of `n` words above the base the computation makes `n'`, and the cell is as it was. Where it fails the
stack ends at the base or above. -/
def Minds (a base n n' : Nat) (x : Exec α) : Prop :=
  ∀ w m, Holds a w (base + n) m → match x.run m with
    | .ok _ m' => Holds a w (base + n') m'
    | .error _ m' => Holds a w base m'

theorem Minds.after {x : Exec α} (h : Minds a base n n' x) (hm : Holds a w (base + n) m) :
    Holds a w base (after x m) := by
  have hrun := h w m hm
  unfold Machine.after
  cases hx : x.run m with
  | ok v m' =>
    rw [hx] at hrun
    exact hrun.mono (Nat.le_add_right ..)
  | error f m' => rwa [hx] at hrun

theorem Minds.bind {x : Exec α} {f : α → Exec β} (hx : Minds a base n k x)
    (hf : ∀ v, Minds a base k n' (f v)) : Minds a base n n' (x >>= f) := by
  intro w m hm
  have hrun := hx w m hm
  rw [run_bind]
  cases hr : x.run m with
  | ok v m₁ =>
    rw [hr] at hrun
    exact hf v w m₁ hrun
  | error e m₁ => rwa [hr] at hrun

theorem Silent.minds {x : Exec α} (hx : Silent x) (a base n : Nat) : Minds a base n n x := by
  intro w m hm
  obtain ⟨v, hv⟩ | ⟨f, -, hf⟩ := hx m
  · rwa [hv]
  · rw [hf]
    exact hm.mono (Nat.le_add_right ..)

theorem minds_done {x : Exec Unit} (h : Minds a base n n' x) :
    Minds a base n n' (do x; return none : Exec (Option Word)) :=
  h.bind fun _ => (silent_pure none).minds a base n'

theorem minds_setCell (value : Word) (h0 : b ≠ 0) (hne : b ≠ a) :
    Minds a base n n (setCell b value) := by
  intro w m hm
  by_cases hb : b < ramSize
  · rw [run_setCell m value hb]
    exact hm.put value h0 hne (Nat.le_of_lt_succ hb)
  · simp only [setCell, if_neg hb]
    exact hm.mono (Nat.le_add_right ..)

theorem minds_jumpTo (label : String) : Minds a base n n (jumpTo label) := by
  intro w m hm
  rw [run_jumpTo_eq]
  cases m.program.labels[(m.function, label)]? with
  | none => exact hm.mono (Nat.le_add_right ..)
  | some pc => exact ⟨hm.cell, hm.stack, hm.heap⟩

section Stack

variable (ha : 0 < a) (hlt : a < base)

include ha hlt

theorem minds_push (value : Word) : Minds a base n (n + 1) (push value) := by
  intro w m hm
  obtain ⟨sp, hn, hle, hsp⟩ := hm.stack
  rcases Nat.lt_or_ge sp 32767 with hroom | hfull
  · rw [run_push_of_room value hsp hroom]
    have hput := hm.put value (show sp ≠ 0 by omega) (by omega) hle
    exact hput.lowered ha (by omega) hroom
  · obtain rfl : sp = 32767 := Nat.le_antisymm hle hfull
    have htop : (m.word 0).toInt.natAbs = 32767 := by
      rw [hsp, toInt_saturate hle, Int.natAbs_natCast]
    have hmax : m.word 0 = 32767 := hsp
    simp only [push, run_bind, run_register, Register.address, htop]
    rw [run_setCell _ _ (by decide)]
    simp only [hmax, if_true, run_bind, run_throw]
    exact (hm.put value (by decide) (by omega) hle).mono (Nat.le_add_right ..)

theorem minds_pop : Minds a base (n + 1) n pop := by
  intro w m hm
  obtain ⟨sp, hn, hle, hsp⟩ := hm.stack
  obtain ⟨k, rfl⟩ : ∃ k, sp = k + 1 := ⟨sp - 1, by omega⟩
  rw [run_pop_of_pushed hsp (by omega) (by omega)]
  exact hm.lowered ha (by omega) (by omega)

theorem minds_unary (f : Word → Word) : Minds a base (n + 1) (n + 1) (unary f) :=
  (minds_pop ha hlt).bind fun _ => minds_push ha hlt _

theorem minds_binary (f : Word → Word → Word) : Minds a base (n + 2) (n + 1) (binary f) :=
  (minds_pop ha hlt).bind fun _ => (minds_pop ha hlt).bind fun _ => minds_push ha hlt _

theorem minds_pushLocals (count : Nat) : Minds a base n (n + count) (pushLocals count) := by
  induction count generalizing n with
  | zero => exact (silent_pure ()).minds a base n
  | succ count ih =>
    rw [show n + (count + 1) = n + 1 + count by omega]
    exact (minds_push ha hlt 0).bind fun _ => ih

theorem minds_runCommand {action : Command} {depth depth' : Nat} (hret : action ≠ .ret)
    (hs : action.settle depth = some depth') : Minds a base depth depth' (runCommand action) := by
  cases action with
  | ret => exact absurd rfl hret
  | neg | not =>
    obtain ⟨hd, rfl⟩ : 1 ≤ depth ∧ depth = depth' := by simpa [Command.settle] using hs
    obtain ⟨k, rfl⟩ := Nat.exists_eq_add_of_le' hd
    exact minds_done (minds_unary ha hlt _)
  | _ =>
    obtain ⟨hd, rfl⟩ : 2 ≤ depth ∧ depth - 1 = depth' := by simpa [Command.settle] using hs
    obtain ⟨k, rfl⟩ := Nat.exists_eq_add_of_le' hd
    exact minds_done (minds_binary ha hlt _)

end Stack

/-! ## Routines -/

section Routines

variable (hlow : a < heapBase)

theorem minds_reserve (size : Word) : Minds a base n n (reserve size) := by
  refine ((silent_address size).minds a base n).bind fun count =>
    (silent_get.minds a base n).bind fun m => ?_
  refine Minds.bind (k := n) (fun w m hm => ?_) fun _ => ?_
  · exact ⟨hm.cell, hm.stack, Nat.le_trans hm.heap (Nat.le_add_right ..)⟩
  split
  · exact ((silent_throw (by trivial)).minds a base n).bind fun _ => (silent_pure _).minds a base n
  · exact (silent_pure _).minds a base n

include hlow

theorem minds_newString (capacity : Word) : Minds a base n n (newString capacity) := by
  intro w m hm
  unfold newString
  generalize (if capacity = 32767 then 32767 else capacity + 1) = size
  have hreserve := @minds_reserve a base n size w m hm
  rw [run_bind]
  cases hr : (reserve size).run m with
  | error f m₁ => rwa [hr] at hreserve
  | ok string m₁ =>
    rw [hr] at hreserve
    obtain ⟨k, hk, rfl, rfl⟩ := of_run_reserve hr
    have hheap := hm.heap
    simp only [heapBase, ramSize] at hheap hk hlow
    dsimp only
    rw [run_bind, run_address_saturate _ (show m.heapEnd ≤ 32767 by omega)]
    exact (minds_setCell (b := m.heapEnd) 0 (by omega) (by omega)).bind
      (fun _ => (silent_pure (saturate m.heapEnd)).minds a base n) w _ hreserve

theorem minds_appendChar {string : Word} (c : Word) (hs : 2048 ≤ string.toInt) :
    Minds a base n n (appendChar string c) := by
  obtain ⟨start, hle, rfl⟩ := exists_saturate (show 0 ≤ string by
    rw [Int16.le_iff_toInt_le]
    exact Int.le_trans (by decide) hs)
  rw [toInt_saturate hle] at hs
  simp only [heapBase] at hlow
  intro w m hm
  rw [appendChar, run_bind, run_address_saturate m hle]
  exact ((silent_cell start).minds a base n).bind (fun u =>
    ((silent_address u).minds a base n).bind fun length =>
      (minds_setCell (b := start + length + 1) c (by omega) (by omega)).bind fun _ =>
        ((silent_cell start).minds a base n).bind fun v =>
          (minds_setCell (b := start) (v + 1) (by omega) (by omega)).bind fun _ =>
            (silent_pure (saturate start)).minds a base n) w m hm

theorem minds_runRoutine {routine : Routine} {arguments : List Word}
    (happend : AppendsHigh routine arguments) :
    Minds a base n n (runRoutine routine arguments) := by
  have hmap : ∀ {x : Exec Word}, Minds a base n n x → Minds a base n n (some <$> x) := by
    intro x hx
    rw [map_eq_pure_bind]
    exact hx.bind fun v => (silent_pure _).minds a base n
  unfold runRoutine
  split
  · exact hmap (minds_reserve _)
  · exact hmap (minds_newString hlow _)
  · exact hmap (minds_appendChar hlow _ (happend rfl _ rfl))
  · exact (silent_pure _).minds a base n
  · exact hmap ((silent_divide _ _).minds a base n)
  · exact (silent_pure _).minds a base n

end Routines

/-! ## Pops -/

/-- What is popped goes past the cell. -/
theorem Holds.writeElement {segment : Segment} {index lcl arg : Nat} (h : Holds a w n m)
    (hlcl : m.word 1 = saturate lcl) (harg : m.word 2 = saturate arg) (hpos : 0 < arg)
    (hle : arg ≤ lcl) (hhigh : lcl ≤ 2048) (hlt : a < lcl)
    (hthis : segment = .this → 2048 ≤ (m.word 3).toInt + index)
    (hthat : segment = .that → 2048 ≤ (m.word 4).toInt + index)
    (havoids : (Instruction.pop segment index).Avoids a arg) (value : Word) :
    Holds a w n (after (writeElement segment index value) m) := by
  obtain ⟨f, hf⟩ | ⟨statics, hs⟩ | ⟨b, hb, hl, hput⟩ := run_writeElement_cases segment index value m
  · rw [after, hf]
    exact h
  · rw [after, hs]
    exact ⟨h.cell, h.stack, h.heap⟩
  · rw [after, hput]
    suffices hne : b ≠ 0 ∧ b ≠ a from h.put value hne.1 hne.2 hb
    obtain ⟨rfl, rfl⟩ | ⟨rfl, rfl⟩ | ⟨rfl, rfl⟩ | ⟨rfl, rfl⟩ | hheap :=
      memory_of_run_locate hlcl harg hle hhigh hthis hthat hl
    · exact ⟨by simp only [pointerBase]; omega, Ne.symm havoids⟩
    · exact ⟨by simp only [tempBase]; omega, Ne.symm havoids⟩
    · omega
    · exact ⟨by omega, Ne.symm havoids⟩
    · omega

/-! ## Steps -/

section Steps

variable {code : List Instruction} {before : Machine} {bottom inner : List Frame}
  {sp lcl arg depth : Nat} {i : Instruction}

theorem after_step (hi : m.instruction? = some i) : after step m = after (perform i) m.next := by
  rw [after, run_step hi, after]

theorem after_done (x : Exec Unit) (m : Machine) :
    after (do x; return none : Exec (Option Word)) m = after x m := by
  rw [after, after, run_bind]
  cases x.run m <;> rfl

/-- A routine leaves its value where the first argument was. -/
theorem Holds.call {name : String} {first count : Nat} {routine : Routine} (h : Holds a w base m)
    (hb : builtin? name count = some routine) (hsp : m.word 0 = saturate (first + count))
    (hle : first + count ≤ 32767)
    (happend : AppendsHigh routine ((List.range' first count).map m.word)) (hfirst : base ≤ first)
    (ha : 0 < a) (hlt : a < base) (hlow : a < heapBase) : Holds a w base (after (call name count) m) := by
  have hminds : Minds a base 0 0 (runRoutine routine ((List.range' first count).map m.word)) :=
    minds_runRoutine hlow happend
  have hroutine := hminds w m h
  rw [after]
  cases hr : (runRoutine routine ((List.range' first count).map m.word)).run m with
  | error f m₁ =>
    rw [run_call_error hsp hle hb hr]
    rwa [hr] at hroutine
  | ok value m₁ =>
    rw [hr] at hroutine
    cases value with
    | none =>
      obtain ⟨-, harity⟩ := Option.filter_eq_some_iff.1 hb
      have hcount : routine.arity = count := by simpa using harity
      exact absurd hr (ne_none_of_runRoutine (by simp [hcount]))
    | some value =>
      have hlowered : Holds a w base (m₁.lowered first) := hroutine.lowered ha hfirst (by omega)
      rw [run_call_value hsp hle hb hr]
      simp only [run_bind, run_setRegister, Register.address]
      exact (minds_push (n := 0) ha hlt value).after hlowered

section Level

variable (h : Level code before bottom base inner sp lcl arg depth m) (hcode : Settled code)
  (hbase : 2 < base) (hhigh : sp ≤ heapBase) (ha : 0 < a) (hlt : a < lcl)
  (hstores : ∀ a ∈ m.storeAddress?, 2048 ≤ a)

include h hcode hbase hhigh ha hlt hstores

theorem Level.holds_pop {segment : Segment} {index : Nat}
    (hi : m.instruction? = some (.pop segment index))
    (havoids : (Instruction.pop segment index).Avoids a arg) :
    Holds a (m.word a) lcl (after (perform (.pop segment index)) m.next) := by
  obtain ⟨depth', hdepth, -⟩ := hcode.depthAt_succ (h.getElem? hi) h.depth_eq
  obtain ⟨hd, -⟩ : 1 ≤ depth ∧ depth - 1 = depth' := by simpa [Instruction.settle] using hdepth
  have hspans := h.spans hbase hhigh
  have hle := h.le
  have hb := hspans.base_le
  simp only [heapBase] at hhigh
  obtain ⟨top, rfl⟩ : ∃ top, sp = top + 1 := ⟨sp - 1, by omega⟩
  have hpop := run_pop_of_pushed hspans.sp_eq (show top < 32767 by omega) (by omega)
  have hm : Holds a (m.word a) lcl m.next := ⟨rfl, ⟨top + 1, by omega, h.high, h.sp_eq⟩, h.heap⟩
  have hlowered : Holds a (m.word a) lcl (m.next.lowered top) := hm.lowered ha (by omega) (by omega)
  have hword : ∀ b, b ≠ 0 → (m.next.lowered top).word b = m.word b := fun b hb =>
    (word_lowered top b).trans (if_neg hb)
  have hafter : after (perform (.pop segment index)) m.next =
      after (writeElement segment index (m.next.word top)) (m.next.lowered top) := by
    rw [← after_done, after, perform, run_bind, hpop]
    rfl
  rw [hafter]
  refine hlowered.writeElement ((hword 1 (by decide)).trans h.lcl_eq)
    ((hword 2 (by decide)).trans h.arg_eq) (by omega) h.arg_le (by omega) hlt ?_ ?_ havoids _
  · rintro rfl
    rw [hword 3 (by decide)]
    exact hstores _ (by rw [storeAddress?, hi]; rfl)
  · rintro rfl
    rw [hword 4 (by decide)]
    exact hstores _ (by rw [storeAddress?, hi]; rfl)

theorem Level.holds_call {name : String} {count : Nat} {routine : Routine}
    (hi : m.instruction? = some (.call name count)) (hb : builtin? name count = some routine) :
    Holds a (m.word a) lcl (after (perform (.call name count)) m.next) := by
  obtain ⟨hcount, -⟩ := hcode.depthAt_call (h.getElem? hi) h.depth_eq
  have hspans := h.spans hbase hhigh
  have hle := h.le
  obtain ⟨first, rfl⟩ : ∃ first, sp = first + count := ⟨sp - count, by omega⟩
  have hm : Holds a (m.word a) lcl m.next := ⟨rfl, ⟨first + count, by omega, h.high, h.sp_eq⟩, h.heap⟩
  rw [perform, after_done]
  refine hm.call hb hspans.sp_eq h.high ?_ (by omega) ha hlt (by omega)
  rintro rfl string hstring
  obtain ⟨-, harity⟩ := Option.filter_eq_some_iff.1 hb
  obtain rfl : 2 = count := of_decide_eq_true harity
  have hfirst : m.next.word first = string := by simpa [List.range'] using hstring
  have hstring := le_of_appendChar hi hb h.sp_eq h.high hstores
  rwa [Nat.add_sub_cancel, ← word_next, hfirst] at hstring

/-- Behind a step that is no return and enters no function a cell below the locals is as it was, unless
the step pops to it. -/
theorem Level.holds (hi : m.instruction? = some i) (hret : i ≠ .command .ret)
    (hcall : ∀ name count, i = .call name count → (builtin? name count).isSome)
    (havoids : i.Avoids a arg) : Holds a (m.word a) lcl (after Machine.step m) := by
  obtain ⟨depth', hdepth, -⟩ := hcode.depthAt_succ (h.getElem? hi) h.depth_eq
  have hm : Holds a (m.word a) (lcl + depth) m.next := ⟨rfl, ⟨sp, h.le, h.high, h.sp_eq⟩, h.heap⟩
  rw [after_step hi]
  cases i with
  | push segment index =>
    exact (((silent_readElement segment index).minds a lcl depth).bind fun value =>
      minds_done (minds_push ha hlt value)).after hm
  | pop segment index => exact h.holds_pop hcode hbase hhigh ha hlt hstores hi havoids
  | command action =>
    have haction : action ≠ .ret := fun heq => hret (heq ▸ rfl)
    exact (minds_runCommand ha hlt haction hdepth).after hm
  | label name => exact hm.mono (Nat.le_add_right ..)
  | function name count => exact (minds_done (minds_pushLocals ha hlt count)).after hm
  | goto name => exact (minds_done (minds_jumpTo name)).after hm
  | ifGoto name =>
    obtain ⟨rfl, -⟩ : depth = 1 ∧ 0 = depth' := by simpa [Instruction.settle] using hdepth
    have hpop : Minds a lcl 1 0 pop := minds_pop ha hlt
    have hjump : ∀ value : Word, Minds a lcl 0 0 (do
        if value ≠ 0 then
          jumpTo name
        return none : Exec (Option Word)) := by
      intro value
      split
      · exact minds_done (minds_jumpTo name)
      · exact (silent_pure _).minds a lcl 0
    exact (hpop.bind hjump).after hm
  | call name count =>
    obtain ⟨routine, hb⟩ := Option.isSome_iff_exists.1 (hcall name count rfl)
    exact h.holds_call hcode hbase hhigh ha hlt hstores hi hb

end Level

end Steps

end Machine

end Jack

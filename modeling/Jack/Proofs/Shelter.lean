import Jack.Proofs.Depth
import Jack.Proofs.Requests

/-!
# What an activation leaves alone

An activation writes to its own cells, to the heap and to the few cells between the registers and the
stack (`Apart`). What it does, short of calling and returning, keeps the cells below its arguments and
the registers that say where it stands (`Works`).
-/

namespace Jack.Machine

variable {α β : Type} {m m₁ m' : Machine} {base sp : Nat}

/-! ## Computations that have succeeded -/

theorem exists_of_run_bind {x : Exec α} {f : α → Exec β} {b : β}
    (h : (x >>= f).run m = .ok b m') :
    ∃ a m₁, x.run m = .ok a m₁ ∧ (f a).run m₁ = .ok b m' := by
  rw [run_bind] at h
  cases hrun : x.run m with
  | ok a m₁ =>
    rw [hrun] at h
    exact ⟨a, m₁, rfl, h⟩
  | error e m₁ => simp [hrun] at h

theorem exists_of_run_map {x : Exec α} {f : α → β} {b : β} (h : (f <$> x).run m = .ok b m') :
    ∃ a, x.run m = .ok a m' ∧ f a = b := by
  rw [map_eq_pure_bind] at h
  obtain ⟨a, m₁, hx, h⟩ := exists_of_run_bind h
  cases h
  exact ⟨a, hx, rfl⟩

theorem of_run_address {w : Word} {n : Nat} (h : (address w).run m = .ok n m') :
    m' = m ∧ n ≤ 32767 ∧ w = saturate n := by
  rcases Int16.lt_or_le w 0 with hneg | hpos
  · simp [run_address_of_neg m hneg] at h
  · obtain ⟨k, hk, rfl⟩ := exists_saturate hpos
    rw [run_address_saturate m hk] at h
    cases h
    exact ⟨rfl, hk, rfl⟩

theorem of_run_setCell {a : Nat} {value : Word} {u : Unit}
    (h : (setCell a value).run m = .ok u m') : a ≤ 32767 ∧ m' = m.put a value := by
  by_cases ha : a < ramSize
  · rw [run_setCell m value ha] at h
    cases h
    exact ⟨Nat.le_of_lt_succ ha, rfl⟩
  · simp [setCell, ha] at h

/-! ## Cells of one's own -/

/-- The cell is none of the first three registers, and none of the stack below the base. -/
def Apart (base a : Nat) : Prop := 2 < a ∧ (a < stackBase ∨ base ≤ a)

/-- The callers' cells, the callers themselves and the place of the activation are as they were. -/
structure Works (base : Nat) (m m' : Machine) : Prop where
  program : m'.program = m.program
  frames : m'.frames = m.frames
  heapEnd : m.heapEnd ≤ m'.heapEnd
  lcl : m'.word 1 = m.word 1
  arg : m'.word 2 = m.word 2
  cells : ∀ a, stackBase ≤ a → a < base → m'.word a = m.word a

namespace Works

theorem refl (base : Nat) (m : Machine) : Works base m m :=
  ⟨rfl, rfl, Nat.le_refl _, rfl, rfl, fun _ _ _ => rfl⟩

theorem trans (h : Works base m m₁) (h' : Works base m₁ m') : Works base m m' where
  program := h'.program.trans h.program
  frames := h'.frames.trans h.frames
  heapEnd := Nat.le_trans h.heapEnd h'.heapEnd
  lcl := h'.lcl.trans h.lcl
  arg := h'.arg.trans h.arg
  cells a ha hb := (h'.cells a ha hb).trans (h.cells a ha hb)

theorem put {a : Nat} (m : Machine) (value : Word) (h : Apart base a) (hle : a ≤ 32767) :
    Works base m (m.put a value) := by
  have hword := fun b => @word_put_of_lt m a b value hle
  have hpos := h.1
  refine ⟨rfl, rfl, Nat.le_refl _, ?_, ?_, fun b hb hlt => ?_⟩
  · rw [hword, if_neg (by omega)]
  · rw [hword, if_neg (by omega)]
  · rw [hword, if_neg]
    rintro rfl
    have := h.2
    omega

theorem lowered (base : Nat) (m : Machine) (sp : Nat) : Works base m (m.lowered sp) := by
  refine ⟨rfl, rfl, Nat.le_refl _, ?_, ?_, fun b hb _ => ?_⟩
  · rw [word_lowered, if_neg (by decide)]
  · rw [word_lowered, if_neg (by decide)]
  · simp only [stackBase] at hb
    rw [word_lowered, if_neg (by omega)]

theorem pushed (m : Machine) (value : Word) (hpos : 2 < sp) (hb : base ≤ sp) (hle : sp ≤ 32767) :
    Works base m (m.pushed sp value) :=
  (put m value ⟨hpos, .inr hb⟩ hle).trans (lowered base _ _)

theorem cleared (m : Machine) {count : Nat} (hpos : 2 < sp) (hb : base ≤ sp)
    (hle : sp + count ≤ 32767) : Works base m (m.cleared sp count) := by
  induction count generalizing m sp with
  | zero => exact refl base m
  | succ count ih =>
    rw [Machine.cleared]
    exact (pushed m 0 hpos hb (by omega)).trans (ih _ (by omega) (by omega) (by omega))

end Works

/-! ## Segments -/

/-- Where compiled code pops to. -/
def WellPlaced : Segment → Nat → Prop
  | .constant, _ => False
  | .pointer, index => index ≤ 1
  | .temp, index => index = 0
  | _, _ => True

theorem wellPlaced_of_mem {k : Syntax.ClassDeclaration} {segment : Segment} {index : Nat}
    (h : .pop segment index ∈ k.code) : WellPlaced segment index := by
  generalize hi : Instruction.pop segment index = i at h
  cases k.occurs i h with
  | function | fieldCount | receiver => simp at hi
  | popObject =>
    cases hi
    exact Nat.zero_le 1
  | body hd h =>
    cases h with
    | compute h =>
      cases h with
      | pointer =>
        cases hi
        exact Nat.le_refl 1
      | this =>
        simp only [Syntax.Bindings.this] at hi
        split at hi <;> simp at hi
      | _ => simp [Symbol.push, Routine.call] at hi
    | @write name s =>
      cases hi
      cases hk : s.kind <;> trivial
    | popTemp =>
      cases hi
      exact rfl
    | popThat =>
      cases hi
      trivial
    | _ => simp at hi

/-- The address that the machine is about to store to, through `this` or `that` or in a string. -/
def storeAddress? (m : Machine) : Option Int :=
  match m.instruction? with
  | some (.pop .this index) => some ((m.word 3).toInt + index)
  | some (.pop .that index) => some ((m.word 4).toInt + index)
  | some i =>
    if i = Routine.stringAppendChar.call then some (m.word ((m.word 0).toInt.toNat - 2)).toInt
    else none
  | none => none

theorem storeAddress?_eq_none {i : Instruction} (hi : m.instruction? = some i)
    (hpop : ∀ index, i ≠ .pop .this index ∧ i ≠ .pop .that index)
    (hcall : i ≠ Routine.stringAppendChar.call) : m.storeAddress? = none := by
  rw [storeAddress?, hi]
  split <;> simp_all

theorem locate_of_base {segment : Segment} {r : Register} (hs : base? segment = some r)
    (index : Nat) : locate index segment = (do
      let start ← register r
      let a ← address start
      return .memory (a + index)) := by
  cases segment <;> simp only [base?, reduceCtorEq, Option.some.injEq] at hs <;> subst hs <;>
    simp [locate]

theorem exists_base_of_run_locate {segment : Segment} {r : Register} {index : Nat} {place : Place}
    (hs : base? segment = some r) (h : (locate index segment).run m = .ok place m') :
    ∃ b ≤ 32767, m.word r.address = saturate b ∧ place = .memory (b + index) := by
  rw [locate_of_base hs] at h
  obtain ⟨start, m₁, hr, hrest⟩ := exists_of_run_bind h
  obtain ⟨b, m₂, ha, hpure⟩ := exists_of_run_bind hrest
  rw [run_register] at hr
  cases hr
  obtain ⟨-, hle, hb⟩ := of_run_address ha
  cases hpure
  exact ⟨b, hle, hb, rfl⟩

/-- Nothing is written but a static variable or the cell that is located. -/
theorem run_writeElement_cases (segment : Segment) (index : Nat) (value : Word) (m : Machine) :
    (∃ f, (writeElement segment index value).run m = .error f m) ∨
      (∃ statics, (writeElement segment index value).run m = .ok () { m with statics }) ∨
      ∃ b ≤ 32767, (locate index segment).run m = .ok (.memory b) m ∧
        (writeElement segment index value).run m = .ok () (m.put b value) := by
  simp only [writeElement, run_bind]
  obtain ⟨place, hl⟩ | ⟨f, -, hf⟩ := silent_locate index segment m
  · simp only [hl]
    cases place with
    | constant n => exact .inl ⟨_, rfl⟩
    | staticVar className index => exact .inr (.inl ⟨_, rfl⟩)
    | memory b =>
      by_cases hb : b < ramSize
      · exact .inr (.inr ⟨b, Nat.le_of_lt_succ hb, rfl, run_setCell m value hb⟩)
      · refine .inl ⟨.overrun, ?_⟩
        simp only [setCell, if_neg hb]
        rfl
  · exact .inl ⟨f, by simp only [hf]⟩

/-- The cells that an activation reaches by a segment: registers, its locals and arguments, and the
heap, where `this` and `that` lead there. -/
theorem memory_of_run_locate {segment : Segment} {index lcl arg a : Nat}
    (hlcl : m.word 1 = saturate lcl) (harg : m.word 2 = saturate arg) (hle : arg ≤ lcl)
    (hhigh : lcl ≤ 2048) (hthis : segment = .this → 2048 ≤ (m.word 3).toInt + index)
    (hthat : segment = .that → 2048 ≤ (m.word 4).toInt + index)
    (h : (locate index segment).run m = .ok (.memory a) m') :
    segment = .pointer ∧ a = pointerBase + index ∨ segment = .temp ∧ a = tempBase + index ∨
      segment = .locals ∧ a = lcl + index ∨ segment = .arguments ∧ a = arg + index ∨ 2048 ≤ a := by
  cases segment with
  | constant => simp [locate] at h
  | statics =>
    simp only [locate, run_bind, run_get, run_pure, EStateM.Result.ok.injEq, reduceCtorEq,
      false_and] at h
  | pointer =>
    cases h
    exact .inl ⟨rfl, rfl⟩
  | temp =>
    cases h
    exact .inr (.inl ⟨rfl, rfl⟩)
  | locals =>
    obtain ⟨b, hb, hword, heq⟩ := exists_base_of_run_locate rfl h
    obtain rfl := saturate_inj hb (by omega) (hword.symm.trans hlcl)
    exact .inr (.inr (.inl ⟨rfl, Place.memory.inj heq⟩))
  | arguments =>
    obtain ⟨b, hb, hword, heq⟩ := exists_base_of_run_locate rfl h
    obtain rfl := saturate_inj hb (by omega) (hword.symm.trans harg)
    exact .inr (.inr (.inr (.inl ⟨rfl, Place.memory.inj heq⟩)))
  | this =>
    obtain ⟨b, hb, hword, heq⟩ := exists_base_of_run_locate rfl h
    have hheap := hthis rfl
    rw [show m.word 3 = saturate b from hword, toInt_saturate hb] at hheap
    rw [Place.memory.inj heq]
    omega
  | that =>
    obtain ⟨b, hb, hword, heq⟩ := exists_base_of_run_locate rfl h
    have hheap := hthat rfl
    rw [show m.word 4 = saturate b from hword, toInt_saturate hb] at hheap
    rw [Place.memory.inj heq]
    omega

/-- What an activation pops goes to a cell of its own. -/
theorem works_of_run_writeElement {segment : Segment} {index lcl arg : Nat} {value : Word}
    {u : Unit} (hw : WellPlaced segment index) (hlcl : m.word 1 = saturate lcl)
    (harg : m.word 2 = saturate arg) (hbase : 2 < base) (hle : base ≤ arg) (hle' : arg ≤ lcl)
    (hlcl' : lcl ≤ 2048)
    (hthis : segment = .this → 2048 ≤ (m.word 3).toInt + index)
    (hthat : segment = .that → 2048 ≤ (m.word 4).toInt + index)
    (h : (writeElement segment index value).run m = .ok u m') :
    Works base m m' ∧ m'.word 0 = m.word 0 := by
  obtain ⟨f, hf⟩ | ⟨statics, hs⟩ | ⟨a, ha, hl, hput⟩ := run_writeElement_cases segment index value m
  · rw [hf] at h
    cases h
  · rw [hs] at h
    cases h
    exact ⟨⟨rfl, rfl, Nat.le_refl _, rfl, rfl, fun _ _ _ => rfl⟩, rfl⟩
  · rw [hput] at h
    cases h
    have hapart : Apart base a := by
      obtain ⟨rfl, rfl⟩ | ⟨rfl, rfl⟩ | ⟨rfl, rfl⟩ | ⟨rfl, rfl⟩ | hheap :=
        memory_of_run_locate hlcl harg hle' hlcl' hthis hthat hl
      · have : index ≤ 1 := hw
        exact ⟨by simp only [pointerBase]; omega, .inl (by simp only [pointerBase, stackBase]; omega)⟩
      · have : index = 0 := hw
        exact ⟨by simp only [tempBase]; omega, .inl (by simp only [tempBase, stackBase]; omega)⟩
      · exact ⟨by omega, .inr (by omega)⟩
      · exact ⟨by omega, .inr (by omega)⟩
      · exact ⟨by omega, .inr (by omega)⟩
    have hpos := hapart.1
    exact ⟨.put m value hapart ha, by rw [word_put_of_lt _ _ ha, if_neg (by omega)]⟩

/-! ## Routines -/

theorem of_run_reserve {size string : Word} (h : (reserve size).run m = .ok string m') :
    ∃ n, m.heapEnd + n < ramSize ∧ string = saturate m.heapEnd ∧
      m' = { m with heapEnd := m.heapEnd + n } := by
  obtain ⟨n, m₁, ha, hrest⟩ := exists_of_run_bind h
  obtain ⟨rfl, hn, rfl⟩ := of_run_address ha
  rcases Nat.lt_or_ge (m₁.heapEnd + n) ramSize with hlt | hge
  · rw [run_reserve hlt] at h
    cases h
    exact ⟨n, hlt, rfl, rfl⟩
  · simp only [run_bind, run_get, run_modify, if_pos hge, run_throw, reduceCtorEq] at hrest

/-- The string that the routine appends to lies in the heap, if it is that routine. -/
def AppendsHigh (routine : Routine) (arguments : List Word) : Prop :=
  routine = .stringAppendChar → ∀ string ∈ arguments.head?, 2048 ≤ string.toInt

/-- Routines work on the heap only. -/
theorem works_of_run_runRoutine {routine : Routine} {arguments : List Word} {value : Option Word}
    (hbase : base ≤ 2048) (hheap : routine = .stringNew → heapBase ≤ m.heapEnd)
    (ha : AppendsHigh routine arguments)
    (h : (runRoutine routine arguments).run m = .ok value m') : Works base m m' := by
  have hreserve : ∀ {n}, Works base m { m with heapEnd := m.heapEnd + n } := fun {n} =>
    ⟨rfl, rfl, Nat.le_add_right _ n, rfl, rfl, fun _ _ _ => rfl⟩
  unfold runRoutine at h
  split at h
  · obtain ⟨string, hrun, -⟩ := exists_of_run_map h
    obtain ⟨n, -, -, rfl⟩ := of_run_reserve hrun
    exact hreserve
  · obtain ⟨string, hrun, -⟩ := exists_of_run_map h
    obtain ⟨string, m₁, hr, hrun⟩ := exists_of_run_bind hrun
    obtain ⟨n, hlt, rfl, rfl⟩ := of_run_reserve hr
    obtain ⟨a, m₂, haddress, hrun⟩ := exists_of_run_bind hrun
    obtain ⟨u, m₃, hset, hrun⟩ := exists_of_run_bind hrun
    obtain ⟨rfl, hle, heq⟩ := of_run_address haddress
    obtain ⟨-, rfl⟩ := of_run_setCell hset
    cases hrun
    have hlow := hheap rfl
    simp only [heapBase, ramSize] at hlow hlt
    obtain rfl := saturate_inj (by omega) hle heq
    exact hreserve.trans (.put _ 0 ⟨by omega, .inr (by omega)⟩ hle)
  · obtain ⟨string, hrun, -⟩ := exists_of_run_map h
    obtain ⟨b, m₁, hb, hrun⟩ := exists_of_run_bind hrun
    obtain ⟨w, m₂, hw, hrun⟩ := exists_of_run_bind hrun
    obtain ⟨length, m₃, hl, hrun⟩ := exists_of_run_bind hrun
    obtain ⟨u, m₄, hset, hrun⟩ := exists_of_run_bind hrun
    obtain ⟨w', m₅, hw', hrun⟩ := exists_of_run_bind hrun
    obtain ⟨u', m₆, hset', hrun⟩ := exists_of_run_bind hrun
    obtain ⟨rfl, hle, rfl⟩ := of_run_address hb
    obtain rfl := (silent_cell b).eq_of_run hw
    obtain ⟨rfl, -, -⟩ := of_run_address hl
    obtain ⟨hle', rfl⟩ := of_run_setCell hset
    obtain rfl := (silent_cell b).eq_of_run hw'
    obtain ⟨-, rfl⟩ := of_run_setCell hset'
    cases hrun
    have hhigh := ha rfl (saturate b) rfl
    rw [toInt_saturate hle] at hhigh
    exact (Works.put _ _ ⟨by omega, .inr (by omega)⟩ hle').trans
      (.put _ _ ⟨by omega, .inr (by omega)⟩ hle)
  · cases h
    exact .refl base m
  · obtain ⟨quotient, hrun, -⟩ := exists_of_run_map h
    obtain rfl := (silent_divide _ _).eq_of_run hrun
    exact .refl base m'
  · cases h
    exact .refl base m

/-! ## Instructions -/

/-- An activation has worked, and the stack now ends there. -/
structure WorksTo (base sp : Nat) (m m' : Machine) : Prop extends Works base m m' where
  sp_eq : m'.word 0 = saturate sp
  high : sp ≤ 32767

section WorksTo

variable {low depth depth' : Nat} {r : Option Word} (hpos : 2 < base)

include hpos

theorem worksTo_pushed (m : Machine) (value : Word) (hb : base ≤ low) (hle : low < 32767) :
    WorksTo base (low + 1) m (m.pushed low value) where
  toWorks := .pushed m value (by omega) hb (by omega)
  sp_eq := by rw [word_pushed _ _ (by omega), if_pos rfl]
  high := hle

variable (hb : base ≤ low) (hsp : m.word 0 = saturate (low + depth)) (hhigh : low + depth ≤ heapBase)

include hb hsp hhigh

theorem worksTo_of_push {segment : Segment} {index : Nat}
    (hrun : (perform (.push segment index)).run m = .ok r m') :
    WorksTo base (low + depth + 1) m m' := by
  simp only [heapBase] at hhigh
  obtain ⟨value, m₁, hread, hrest⟩ := exists_of_run_bind hrun
  obtain ⟨u, m₂, hpush, hpure⟩ := exists_of_run_bind hrest
  obtain rfl := (silent_readElement segment index).eq_of_run hread
  rw [run_push_of_room value hsp (by omega)] at hpush
  cases hpush
  cases hpure
  exact worksTo_pushed hpos _ value (by omega) (by omega)

theorem worksTo_of_command {action : Command} (ha : action ≠ .ret)
    (hs : action.settle depth = some depth')
    (hrun : (perform (.command action)).run m = .ok r m') : WorksTo base (low + depth') m m' := by
  simp only [heapBase] at hhigh
  have hunary : ∀ f, 1 ≤ depth → (unary f).run m = .ok () m' → WorksTo base (low + depth) m m' := by
    intro f hd hf
    obtain ⟨k, rfl⟩ := Nat.exists_eq_add_of_le' hd
    have hsp' : m.word 0 = saturate (low + k + 1) := hsp
    have hlt : low + k < 32767 := by omega
    rw [run_unary f hsp' (by omega) (by omega)] at hf
    cases hf
    exact worksTo_pushed hpos m _ (Nat.le_add_right_of_le hb) hlt
  have hbinary : ∀ f, 2 ≤ depth → (binary f).run m = .ok () m' →
      WorksTo base (low + (depth - 1)) m m' := by
    intro f hd hf
    obtain ⟨k, rfl⟩ := Nat.exists_eq_add_of_le' hd
    have hsp' : m.word 0 = saturate (low + k + 2) := hsp
    have hlt : low + k < 32767 := by omega
    rw [run_binary f hsp' (by omega) (by omega)] at hf
    cases hf
    exact worksTo_pushed hpos m _ (Nat.le_add_right_of_le hb) hlt
  cases action with
  | ret => exact absurd rfl ha
  | neg | not =>
    obtain ⟨hd, rfl⟩ : 1 ≤ depth ∧ depth = depth' := by simpa [Command.settle] using hs
    obtain ⟨u, m₁, hf, hpure⟩ := exists_of_run_bind hrun
    cases hpure
    exact hunary _ hd hf
  | _ =>
    obtain ⟨hd, rfl⟩ : 2 ≤ depth ∧ depth - 1 = depth' := by simpa [Command.settle] using hs
    obtain ⟨u, m₁, hf, hpure⟩ := exists_of_run_bind hrun
    cases hpure
    exact hbinary _ hd hf

/-- A call that is carried out in place leaves its value where its arguments were. -/
theorem worksTo_of_routine {name : String} {routine : Routine}
    (hr : builtin? name depth = some routine)
    (hheap : routine = .stringNew → heapBase ≤ m.heapEnd)
    (happend : routine = .stringAppendChar → 2048 ≤ (m.word low).toInt)
    (hrun : (perform (.call name depth)).run m = .ok r m') : WorksTo base (low + 1) m m' := by
  simp only [heapBase] at hhigh
  obtain ⟨-, harity⟩ := Option.filter_eq_some_iff.1 hr
  have hcount : routine.arity = depth := by simpa using harity
  obtain ⟨u, m₁, hcall, hpure⟩ := exists_of_run_bind hrun
  cases hpure
  cases hrun : (runRoutine routine ((List.range' low depth).map m.word)).run m with
  | error f m₂ => simp only [run_call_error hsp (by omega) hr hrun, reduceCtorEq] at hcall
  | ok value m₂ =>
    cases value with
    | none => exact absurd hrun (ne_none_of_runRoutine (by simp [hcount]))
    | some value =>
      have happends : AppendsHigh routine ((List.range' low depth).map m.word) := by
        rintro rfl string hstring
        obtain rfl : 2 = depth := hcount
        obtain rfl : m.word low = string := by simpa [List.range'] using hstring
        exact happend rfl
      have hworks := @works_of_run_runRoutine m m₂ base _ _ _ (by omega) hheap happends hrun
      rw [run_call_routine hsp (by omega) hr (by omega) (by omega) hrun] at hcall
      cases hcall
      have hpushed := worksTo_pushed hpos m₂ value hb (by omega)
      exact ⟨hworks.trans hpushed.toWorks, hpushed.sp_eq, hpushed.high⟩

end WorksTo

/-- The activation stands above the base, with nothing but its own cells on the stack. -/
structure Spans (base arg lcl sp : Nat) (m : Machine) : Prop where
  sp_eq : m.word 0 = saturate sp
  lcl_eq : m.word 1 = saturate lcl
  arg_eq : m.word 2 = saturate arg
  base_pos : 2 < base
  base_le : base ≤ arg
  arg_le : arg ≤ lcl
  lcl_le : lcl ≤ sp
  high : sp ≤ heapBase

namespace Spans

variable {arg lcl : Nat} {r : Option Word} (h : Spans base arg lcl sp m)

include h

theorem push {segment : Segment} {index : Nat}
    (hrun : (perform (.push segment index)).run m = .ok r m') : WorksTo base (sp + 1) m m' := by
  obtain ⟨hsp, -, -, hpos, hb, ha, hl, hhigh⟩ := h
  exact @worksTo_of_push _ _ _ sp 0 _ hpos (by omega) hsp hhigh _ _ hrun

theorem pop {segment : Segment} {index : Nat} (hlt : lcl < sp) (hw : WellPlaced segment index)
    (hthis : segment = .this → 2048 ≤ (m.word 3).toInt + index)
    (hthat : segment = .that → 2048 ≤ (m.word 4).toInt + index)
    (hrun : (perform (.pop segment index)).run m = .ok r m') : WorksTo base (sp - 1) m m' := by
  obtain ⟨k, rfl⟩ : ∃ k, sp = k + 1 := ⟨sp - 1, by omega⟩
  obtain ⟨hsp, hlcl, harg, hpos, hb, ha, hl, hhigh⟩ := h
  simp only [heapBase] at hhigh
  obtain ⟨value, m₁, hpop, hrest⟩ := exists_of_run_bind hrun
  obtain ⟨u, m₂, hwrite, hpure⟩ := exists_of_run_bind hrest
  rw [run_pop_of_pushed hsp (by omega) (by omega)] at hpop
  cases hpop
  cases hpure
  have hword : ∀ a, a ≠ 0 → (m.lowered k).word a = m.word a := fun a ha => by
    rw [word_lowered, if_neg ha]
  obtain ⟨hworks, hword₀⟩ := works_of_run_writeElement hw ((hword 1 (by decide)).trans hlcl)
    ((hword 2 (by decide)).trans harg) hpos hb ha (by omega)
    (by rwa [hword 3 (by decide)]) (by rwa [hword 4 (by decide)]) hwrite
  refine ⟨(Works.lowered base m k).trans hworks, ?_, by omega⟩
  rw [hword₀, word_lowered, if_pos rfl]
  rfl

theorem command {action : Command} {depth depth' : Nat} (ha : action ≠ .ret)
    (hs : action.settle depth = some depth') (hle : lcl + depth ≤ sp)
    (hrun : (perform (.command action)).run m = .ok r m') :
    ∃ sp', lcl + depth' ≤ sp' ∧ WorksTo base sp' m m' := by
  obtain ⟨hsp, -, -, hpos, hb, ha', hl, hhigh⟩ := h
  obtain ⟨low, rfl⟩ : ∃ low, sp = low + depth := ⟨sp - depth, by omega⟩
  exact ⟨low + depth', by omega, worksTo_of_command hpos (by omega) hsp hhigh ha hs hrun⟩

theorem function {name : String} {count : Nat}
    (hrun : (perform (.function name count)).run m = .ok r m') : WorksTo base (sp + count) m m' := by
  obtain ⟨hsp, -, -, hpos, hb, ha, hl, hhigh⟩ := h
  simp only [heapBase] at hhigh
  obtain ⟨u, m₁, hf, hpure⟩ := exists_of_run_bind hrun
  have hroom := le_of_run_pushLocals hsp (by omega) hf
  rw [run_pushLocals hsp hroom] at hf
  cases hf
  cases hpure
  refine ⟨.cleared m (by omega) (by omega) hroom, ?_, hroom⟩
  rw [word_cleared 0 (by omega) hsp hroom, if_pos rfl]

theorem routine {name : String} {count : Nat} {routine : Routine}
    (hr : builtin? name count = some routine) (hle : lcl + count ≤ sp)
    (hheap : heapBase ≤ m.heapEnd)
    (happend : routine = .stringAppendChar → 2048 ≤ (m.word (sp - 2)).toInt)
    (hrun : (perform (.call name count)).run m = .ok r m') :
    WorksTo base (sp - count + 1) m m' := by
  obtain ⟨hsp, -, -, hpos, hb, ha, hl, hhigh⟩ := h
  obtain ⟨low, rfl⟩ : ∃ low, sp = low + count := ⟨sp - count, by omega⟩
  rw [Nat.add_sub_cancel]
  refine worksTo_of_routine hpos (by omega) hsp hhigh hr (fun _ => hheap) ?_ hrun
  rintro rfl
  obtain ⟨-, harity⟩ := Option.filter_eq_some_iff.1 hr
  obtain rfl : 2 = count := of_decide_eq_true harity
  exact happend rfl

end Spans

end Jack.Machine

import Jack.Proofs.Allocation
import Jack.Proofs.CallingConvention
import Jack.Proofs.Walking
import Mathlib.Algebra.GroupWithZero.Nat

/-!
# The requests of all runs

Over all the runs of a machine, `Ledger` keeps what it has asked for and what it was told. The answers
only depend on where the heap ends, and the heap ends where the sizes of all requests add up to,
refused ones with them (`Ledger.answered`, `Ledger.heapEnd`). So the blocks that were handed out lie
behind one another (`Answered.blocks`); and once a request has failed for want of memory, no request
succeeds any more, however small it is (`succeeds_iff`).
-/

namespace Jack.Machine

open Syntax

variable {m₀ m m' : Machine} {log : List Request}

/-! ## Requests and blocks -/

/-- What a machine has asked for, where in the program, and what it was told. -/
structure Request where
  place : Nat
  size : Word
  answer : Except Fault Word

/-- Cells of the heap, one behind another. -/
structure HeapBlock where
  start : Nat
  size : Nat
  deriving DecidableEq, Repr

namespace HeapBlock

instance : Membership Nat HeapBlock := ⟨fun b a => b.start ≤ a ∧ a < b.start + b.size⟩

theorem mem_iff {b : HeapBlock} {a : Nat} : a ∈ b ↔ b.start ≤ a ∧ a < b.start + b.size := Iff.rfl

/-- No cell is in both. -/
def Disjoint (b b' : HeapBlock) : Prop := ∀ a ∈ b, a ∉ b'

end HeapBlock

/-- The request that the next step makes, with what the heap answers to it. -/
def request? (m : Machine) : Option Request :=
  m.asked?.map fun size =>
    { place := m.pc
      size
      answer := match (reserve size).run m.next with
        | .ok start _ => .ok start
        | .error f _ => .error f }

/-- The block that was handed out, if one was. -/
def Request.block? (r : Request) : Option HeapBlock :=
  match r.answer with
  | .ok start => some ⟨start.toNatClampNeg, r.size.toNatClampNeg⟩
  | .error _ => none

def blocksOf (log : List Request) : List HeapBlock := log.filterMap Request.block?

/-- The number of cells that were handed out. -/
def granted (log : List Request) : Nat := ((blocksOf log).map HeapBlock.size).sum

/-- The number of cells that were asked for. -/
def claimed (log : List Request) : Nat := (log.map (·.size.toNatClampNeg)).sum

@[simp] theorem claimed_append (log log' : List Request) :
    claimed (log ++ log') = claimed log + claimed log' := by
  simp [claimed]

theorem blocksOf_append (log log' : List Request) :
    blocksOf (log ++ log') = blocksOf log ++ blocksOf log' := List.filterMap_append ..

theorem granted_append (log log' : List Request) :
    granted (log ++ log') = granted log + granted log' := by
  simp [granted, blocksOf_append]

/-- The machine is in the middle of a run, and these are all the requests that it has made since it
was loaded. Where a run is cut off, or has come to its end with a value or a fault, the next one may
begin. -/
inductive Ledger (m₀ : Machine) : List Request → Machine → Prop
  | first {entry : String} {m : Machine} (henter : (enterFunction entry 0 none).run m₀ = .ok () m) :
    Ledger m₀ [] m
  | step {log : List Request} {m m' : Machine} (h : Ledger m₀ log m)
    (hstep : step.run m = .ok none m') : Ledger m₀ (log ++ m.request?.toList) m'
  | again {log : List Request} {entry : String} {m m' : Machine} (h : Ledger m₀ log m)
    (henter : (enterFunction entry 0 none).run m = .ok () m') : Ledger m₀ log m'
  | next {log : List Request} {entry : String} {m m' : Machine} (h : Ledger m₀ log m)
    (henter : (enterFunction entry 0 none).run (after Machine.step m) = .ok () m') :
    Ledger m₀ (log ++ m.request?.toList) m'

theorem request?_of_not_asked (h : m.asked? = none) : m.request? = none := by
  rw [request?, h, Option.map_none]

theorem Ledger.quiet (h : Ledger m₀ log m) (ha : m.asked? = none)
    (hstep : Machine.step.run m = .ok none m') : Ledger m₀ log m' := by
  have := h.step hstep
  rwa [request?_of_not_asked ha, Option.toList_none, List.append_nil] at this

/-! ## Every run is in the ledger -/

/-- Nothing is running: the machine has just been loaded, or a run has left it there. -/
def Idle (m₀ : Machine) (log : List Request) (m : Machine) : Prop :=
  m = m₀ ∧ log = [] ∨ Ledger m₀ log m ∨ ∃ (last : Machine) (log' : List Request),
    Ledger m₀ log' last ∧ log = log' ++ last.request?.toList ∧ m = after step last

theorem Idle.enter {entry : String} (h : Idle m₀ log m)
    (henter : (enterFunction entry 0 none).run m = .ok () m') : Ledger m₀ log m' := by
  obtain ⟨rfl, rfl⟩ | h | ⟨last, log', hlast, rfl, rfl⟩ := h
  · exact .first henter
  · exact h.again henter
  · exact hlast.next henter

theorem Ledger.exists_idle (h : Ledger m₀ log m) (limit : Nat) :
    ∃ log', Idle m₀ log' (after (steps limit) m) := by
  -- the run goes on for as long as the steps do, and leaves the ledger with the one that ends it
  induction limit generalizing m log with
  | zero => exact ⟨log, .inr (.inl h)⟩
  | succ limit ih =>
    have hlast : Idle m₀ (log ++ m.request?.toList) (after Machine.step m) :=
      .inr (.inr ⟨m, log, h, rfl, rfl⟩)
    simp only [after, steps, run_bind] at hlast ⊢
    cases hstep : Machine.step.run m with
    | error f m₁ => exact ⟨_, by rwa [hstep] at hlast⟩
    | ok r m₁ =>
      cases r with
      | none => exact ih (h.step hstep)
      | some value => exact ⟨_, by rwa [hstep] at hlast⟩

theorem Served.exists_idle (h : Served m₀ m) : ∃ log, Idle m₀ log m := by
  induction h with
  | loaded => exact ⟨[], .inl ⟨rfl, rfl⟩⟩
  | @request m _ entry ih =>
    obtain ⟨log, ih⟩ := ih
    simp only [after, run, run_bind]
    cases hf : m.program.functions[entry]? with
    | none =>
      rw [run_enterFunction_of_none 0 none hf]
      exact ⟨log, ih⟩
    | some pc =>
      have henter := run_enterFunction (m := m) 0 none hf
      rw [henter]
      exact (ih.enter henter).exists_idle stepLimit

/-- Whatever a machine runs, there is a ledger of it. -/
theorem Running.exists_ledger (h : Running m₀ m) : ∃ log, Ledger m₀ log m := by
  induction h with
  | enter h henter =>
    obtain ⟨log, hidle⟩ := h.exists_idle
    exact ⟨log, hidle.enter henter⟩
  | step _ hstep ih =>
    obtain ⟨log, hledger⟩ := ih
    exact ⟨_, hledger.step hstep⟩

/-! ## Answers -/

theorem request?_eq (m : Machine) :
    m.request? = m.asked?.map fun size => ⟨m.pc, size, answerAt m.heapEnd size⟩ := by
  have hnext : m.next.heapEnd = m.heapEnd := rfl
  simp only [request?, run_reserve_eq, hnext]
  congr 1
  funext size
  cases answerAt m.heapEnd size <;> rfl

/-- Each request was answered with the heap where the requests before had moved its end. -/
inductive Answered (base : Nat) : List Request → Prop
  | nil : Answered base []
  | snoc {log : List Request} {r : Request} (h : Answered base log)
    (hr : r.answer = answerAt (base + claimed log) r.size) : Answered base (log ++ [r])

/-- The end of the heap is moved by every request, be it granted or not. -/
theorem heapEnd_after_step (m : Machine) :
    (after Machine.step m).heapEnd = m.heapEnd + claimed m.request?.toList := by
  rw [request?_eq]
  cases ha : m.asked? with
  | none => exact heapEnd_of_not_asked ha
  | some size => simpa [claimed] using heapEnd_of_asked ha

theorem Answered.step {base : Nat} (h : Answered base log) (hm : m.heapEnd = base + claimed log) :
    Answered base (log ++ m.request?.toList) := by
  rw [request?_eq]
  cases ha : m.asked? with
  | none => simpa using h
  | some size => exact h.snoc (by rw [hm])

theorem heapEnd_of_enter {entry : String}
    (henter : (enterFunction entry 0 none).run m = .ok () m') : m'.heapEnd = m.heapEnd := by
  have := sparing_enterFunction entry 0 none m
  rwa [after, henter] at this

/-- The heap ends where all that was asked for adds up to. -/
theorem Ledger.heapEnd (h : Ledger m₀ log m) : m.heapEnd = m₀.heapEnd + claimed log := by
  induction h with
  | first henter => exact heapEnd_of_enter henter
  | @step log m m' _ hstep ih =>
    have := heapEnd_after_step m
    rw [after, hstep, ih] at this
    rw [claimed_append, ← Nat.add_assoc]
    exact this
  | again _ henter ih => exact (heapEnd_of_enter henter).trans ih
  | @next log entry m m' _ henter ih =>
    rw [heapEnd_of_enter henter, heapEnd_after_step, ih, claimed_append, Nat.add_assoc]

theorem Ledger.program (h : Ledger m₀ log m) : m.program = m₀.program := by
  have henter : ∀ {entry : String} {m m' : Machine},
      (enterFunction entry 0 none).run m = .ok () m' → m'.program = m.program := by
    intro entry m m' henter
    have := (grown_enterFunction entry 0 none m).program
    rwa [after, henter] at this
  induction h with
  | first h => exact henter h
  | @step log m m' _ hstep ih =>
    have := (grown_step m).program
    rw [after, hstep] at this
    exact this.trans ih
  | again _ h ih => exact (henter h).trans ih
  | @next log entry m m' _ h ih => exact (henter h).trans ((grown_step m).program.trans ih)

theorem Ledger.answered (h : Ledger m₀ log m) : Answered m₀.heapEnd log := by
  induction h with
  | first => exact .nil
  | step h _ ih => exact ih.step h.heapEnd
  | again _ _ ih => exact ih
  | next h _ ih => exact ih.step h.heapEnd

namespace Answered

variable {base : Nat}

/-- Blocks are handed out one behind another, between the beginning and the end of the heap. -/
theorem blocks (h : Answered base log) :
    (blocksOf log).Pairwise (fun b b' => b.start + b.size ≤ b'.start) ∧
      ∀ b ∈ blocksOf log, base ≤ b.start ∧ b.start + b.size ≤ base + claimed log ∧
        b.start + b.size < ramSize := by
  induction h with
  | nil => simp [blocksOf]
  | @snoc log r _ hr ih =>
    obtain ⟨hordered, hwithin⟩ := ih
    rw [blocksOf_append, claimed_append]
    cases ha : r.answer with
    | error f =>
      -- nothing is handed out, though the end of the heap may move
      have hnone : blocksOf [r] = [] := by simp [blocksOf, Request.block?, ha]
      rw [hnone, List.append_nil]
      refine ⟨hordered, fun b hb => ?_⟩
      obtain ⟨hlow, hhigh, hlt⟩ := hwithin b hb
      exact ⟨hlow, by omega, hlt⟩
    | ok start =>
      obtain ⟨-, hlt, rfl⟩ := answerAt_eq_ok.1 (hr.symm.trans ha)
      have hstart : (saturate (base + claimed log)).toNatClampNeg = base + claimed log :=
        toNatClampNeg_saturate (by simp only [ramSize] at hlt; omega)
      have hone : blocksOf [r] = [⟨base + claimed log, r.size.toNatClampNeg⟩] := by
        simp [blocksOf, Request.block?, ha, hstart]
      rw [hone, List.pairwise_append]
      refine ⟨⟨hordered, List.pairwise_singleton _ _, fun b hb b' hb' => ?_⟩, fun b hb => ?_⟩
      · obtain rfl := List.mem_singleton.1 hb'
        exact (hwithin b hb).2.1
      · rcases List.mem_append.1 hb with hb | hb
        · obtain ⟨hlow, hhigh, hlt⟩ := hwithin b hb
          exact ⟨hlow, by omega, hlt⟩
        · obtain rfl := List.mem_singleton.1 hb
          exact ⟨Nat.le_add_right _ _, by simp [claimed, Nat.add_assoc], hlt⟩

/-- As long as there was memory, what was asked for was handed out: a negative size asks for
nothing. -/
theorem granted_eq (h : Answered base log) (hmemory : ∀ r ∈ log, r.answer ≠ .error .outOfMemory) :
    granted log = claimed log := by
  induction h with
  | nil => rfl
  | @snoc log r _ hr ih =>
    rw [List.forall_mem_append] at hmemory
    have hnot := hmemory.2 r (List.mem_singleton_self r)
    have hlast : granted [r] = claimed [r] := by
      rw [hr, ne_eq, answerAt_eq_outOfMemory, not_and, Nat.not_le] at hnot
      rcases Int16.lt_or_le r.size 0 with hneg | hpos
      · have hrefused : r.answer = .error (.invalidAddress r.size.toInt) := by
          rw [hr, answerAt, if_pos hneg]
        simp [granted, claimed, blocksOf, Request.block?, hrefused, toNatClampNeg_of_neg hneg]
      · have hgranted := hr.trans (answerAt_eq_ok.2 ⟨hpos, hnot hpos, rfl⟩)
        simp [granted, claimed, blocksOf, Request.block?, hgranted]
    rw [granted_append, claimed_append, ih hmemory.1, hlast]

/-- Where memory was short once, the end of the heap is past that of the memory. -/
theorem ramSize_le (h : Answered base log) {r : Request} (hr : r ∈ log)
    (hmemory : r.answer = .error .outOfMemory) : ramSize ≤ base + claimed log := by
  induction h with
  | nil => simp at hr
  | @snoc log r' _ hr' ih =>
    rw [claimed_append]
    rcases List.mem_append.1 hr with hr | hr
    · have := ih hr
      omega
    · obtain rfl := List.mem_singleton.1 hr
      have := (answerAt_eq_outOfMemory.1 (hr'.symm.trans hmemory)).2
      simpa [claimed, Nat.add_assoc] using this

end Answered

/-- The block of a request begins at the address that the call leaves on the stack. -/
theorem run_step_block {r : Request} {b : HeapBlock} {sp : Nat} (hr : m.request? = some r)
    (hb : r.block? = some b) (hpos : 0 < sp) (hlt : sp < 32767)
    (hsp : m.word 0 = saturate (sp + 1)) :
    ∃ m', step.run m = .ok none m' ∧ m'.word sp = saturate b.start := by
  rw [request?_eq, Option.map_eq_some_iff] at hr
  obtain ⟨size, hasked, rfl⟩ := hr
  cases ha : answerAt m.heapEnd size with
  | error f => simp [Request.block?, ha] at hb
  | ok start =>
    obtain ⟨-, hroom, rfl⟩ := answerAt_eq_ok.1 ha
    simp only [ramSize] at hroom
    have hstart : (saturate m.heapEnd).toNatClampNeg = m.heapEnd :=
      toNatClampNeg_saturate (by omega)
    simp only [Request.block?, ha, hstart, Option.some.injEq] at hb
    subst hb
    obtain ⟨m₁, sp', hrun, hsp', hlt', -⟩ := run_step_granted hasked ha
    obtain rfl : sp = sp' := by
      have := saturate_inj (by omega) (by omega) (hsp.symm.trans hsp')
      omega
    exact ⟨_, hrun, by rw [word_pushed _ _ (by omega), if_neg (by omega), if_pos rfl]⟩

/-- A call that asks for a block and succeeds is given one. -/
theorem exists_block {r : Request} (hr : m.request? = some r) (hrun : step.run m = .ok none m') :
    ∃ b, r.block? = some b := by
  rw [request?_eq, Option.map_eq_some_iff] at hr
  obtain ⟨size, hasked, rfl⟩ := hr
  cases ha : answerAt m.heapEnd size with
  | error f => simp [run_step_refused hasked ha] at hrun
  | ok start => simp [Request.block?]

/-! ## Requests after others -/

theorem heapEnd_of_load {text : String} (h : load text = .ok m) : m.heapEnd = heapBase := by
  unfold load at h
  cases hp : Program.ofText text with
  | error line => simp [hp] at h
  | ok program =>
    rw [hp] at h
    rw [← Except.ok.inj h]
    rfl

/-- A request succeeds if its size is not negative, memory has never been short before, and what has
been handed out leaves room for it. A request of a negative size leaves the heap as it was; one for
which memory is short moves its end all the same. -/
theorem succeeds_iff {text : String} (hl : load text = .ok m₀) :
    (∀ m, Running m₀ m → ∃ log, Ledger m₀ log m) ∧
    ∀ log m size, Ledger m₀ log m → m.asked? = some size →
      ((∃ m', step.run m = .ok none m') ↔
        0 ≤ size ∧ (∀ r ∈ log, r.answer ≠ .error .outOfMemory) ∧
          granted log + size.toNatClampNeg < 32768 - 2048) ∧
      (size < 0 → ∃ m', step.run m = .error (.invalidAddress size.toInt) m' ∧
        m'.heapEnd = m.heapEnd) ∧
      ∀ m', step.run m = .error .outOfMemory m' → m'.heapEnd = m.heapEnd + size.toNatClampNeg := by
  refine ⟨fun m h => h.exists_ledger, fun log m size h hasked => ⟨?_, fun hneg => ?_, ?_⟩⟩
  · have hend := h.heapEnd
    rw [heapEnd_of_load hl] at hend
    have hanswered := h.answered
    rw [heapEnd_of_load hl] at hanswered
    have hsucceeds : (∃ m', step.run m = .ok none m') ↔
        0 ≤ size ∧ m.heapEnd + size.toNatClampNeg < ramSize := by
      cases ha : answerAt m.heapEnd size with
      | error f =>
        rw [run_step_refused hasked ha]
        simp only [reduceCtorEq, exists_false, false_iff]
        rintro ⟨hpos, hlt⟩
        rw [answerAt_eq_ok.2 ⟨hpos, hlt, rfl⟩] at ha
        simp at ha
      | ok start =>
        obtain ⟨m₁, sp, hrun, -⟩ := run_step_granted hasked ha
        obtain ⟨hpos, hlt, -⟩ := answerAt_eq_ok.1 ha
        exact ⟨fun _ => ⟨hpos, hlt⟩, fun _ => ⟨_, hrun⟩⟩
    rw [hsucceeds, hend]
    by_cases hmemory : ∀ r ∈ log, r.answer ≠ .error .outOfMemory
    · rw [hanswered.granted_eq hmemory]
      simp only [heapBase, ramSize]
      constructor
      · rintro ⟨hpos, hlt⟩
        exact ⟨hpos, hmemory, by omega⟩
      · rintro ⟨hpos, -, hlt⟩
        exact ⟨hpos, by omega⟩
    · obtain ⟨r, hr, hshort⟩ : ∃ r ∈ log, r.answer = .error .outOfMemory := by
        simpa using hmemory
      have hfull := hanswered.ramSize_le hr hshort
      constructor
      · rintro ⟨-, hlt⟩
        exact absurd hlt (by omega)
      · rintro ⟨-, hnever, -⟩
        exact absurd hshort (hnever r hr)
  · have ha : answerAt m.heapEnd size = .error (.invalidAddress size.toInt) := by
      rw [answerAt, if_pos hneg]
    refine ⟨_, run_step_refused hasked ha, ?_⟩
    simp only [taken, toNatClampNeg_of_neg hneg, Nat.add_zero]
    rfl
  · intro m' hrun
    have hheap := heapEnd_of_asked hasked
    rwa [after, hrun] at hheap

/-! ## Runs that fail -/

theorem Running.walk {n : Nat} (h : Running m₀ m) (hw : Walk n m m') : Running m₀ m' := by
  induction hw with
  | refl => exact h
  | step _ hstep _ ih => exact ih (h.step hstep)

theorem run_steps_of_walk {n : Nat} (hw : Walk n m m') (limit : Nat) :
    (steps (n + limit)).run m = (steps limit).run m' := by
  induction hw with
  | refl => rw [Nat.zero_add]
  | step _ hstep _ ih =>
    rw [Nat.add_right_comm, steps, run_bind, hstep]
    exact ih

/-- A run that comes to a fault within the limit leaves the machine as the fault does. -/
theorem Served.of_walk {entry : String} {n : Nat} {m₁ m₂ : Machine} {f : Fault} (h : Served m₀ m)
    (henter : (enterFunction entry 0 none).run m = .ok () m₁) (hw : Walk n m₁ m₂)
    (hn : n < stepLimit) (hfault : Machine.step.run m₂ = .error f m') : Served m₀ m' := by
  obtain ⟨limit, hlimit⟩ := Nat.exists_eq_add_of_lt hn
  have hafter : after (run entry) m = m' := by
    have hsteps := run_steps_of_walk hw (limit + 1)
    rw [← Nat.add_assoc, ← hlimit] at hsteps
    simp only [after, run, run_bind, henter, hsteps, steps, hfault, left]
  exact hafter ▸ h.request entry

/-- The first function to be run has an empty stack, and no object. -/
theorem exists_entered {p : Program} {name : String} {entry : Nat}
    (h : p.functions[name]? = some entry) :
    ∃ m, (enterFunction name 0 none).run (ofProgram p) = .ok () m ∧ m.pc = entry ∧
      m.word 0 = saturate 256 ∧ m.word 3 = saturate 0 :=
  ⟨_, run_enterFunction 0 none h, rfl, (word_entered _ _ _ _ _ 0).trans (word_ofProgram 0),
    (word_entered _ _ _ _ _ 3).trans (word_ofProgram 3)⟩

/-- A function that asks for an array does so in its third step. -/
theorem Ledger.walk_array {name : String} {n sp : Nat} (h : Ledger m₀ log m)
    (hcode : Placed m.program m.pc
      [.function name 0, .push .constant n, .call "Array.new" 1])
    (hsp : m.word 0 = saturate sp) (hpos : 0 < sp) (hlt : sp < 32767) :
    ∃ m', Walk 2 m m' ∧ Ledger m₀ log m' ∧ m'.asked? = some (saturate n) ∧
      m'.word 0 = saturate (sp + 1) := by
  obtain ⟨hfunction, hpush, hcall, -⟩ := hcode
  have hi : m.instruction? = some (.function name 0) := hfunction
  have hi₁ : m.next.instruction? = some (.push .constant n) := hpush
  have hi₂ : (m.next.next.pushed sp (saturate n)).instruction? = some (.call "Array.new" 1) := hcall
  have hstep := run_step_entry hi
  have hstep₁ := run_step_constant hi₁ ((word_next m 0).trans hsp) hlt
  have hsp₂ : (m.next.next.pushed sp (saturate n)).word 0 = saturate (sp + 1) := by
    rw [word_pushed _ _ (by omega), if_pos rfl]
  refine ⟨_, .step (by simp [hi]) hstep (.single (by simp [hi₁]) hstep₁),
    (h.quiet (asked?_of_ne hi (by simp)) hstep).quiet (asked?_of_ne hi₁ (by simp)) hstep₁, ?_, hsp₂⟩
  rw [asked?_of_alloc hi₂ (by decide) hsp₂ hlt, word_pushed _ _ (by omega), if_neg (by omega),
    if_pos rfl]

/-! ## A machine that asks for too much -/

def hoardSource : String :=
  "class A \x7b field int f, g; constructor A new() { let g = 7; return this; } " ++
    "function int low() { let f = 0; return A.new(); } " ++
    "function int all() { return Array.new(32767); } " ++
    "function int one() { return Array.new(1); } \x7d"

def hoardNew : SubroutineDeclaration where
  kind := .constructor
  returnType := some (.object "A")
  name := "new"
  parameters := []
  locals := []
  body := .cons (.assign "g" (.term (.integer 7))) (.cons (.giveBack (some (.term .this))) .nil)

def hoardLow : SubroutineDeclaration where
  kind := .function
  returnType := some .int
  name := "low"
  parameters := []
  locals := []
  body := .cons (.assign "f" (.term (.integer 0)))
    (.cons (.giveBack (some (.term (.call (.qualified "A" "new" .nil))))) .nil)

/-- A function that asks for an array. -/
def hoardArray (name : String) (size : Nat) : SubroutineDeclaration where
  kind := .function
  returnType := some .int
  name
  parameters := []
  locals := []
  body := .cons (.giveBack (some (.term (.call (.qualified "Array" "new"
    (.cons (.term (.integer size)) .nil)))))) .nil

/-- There is not enough memory for `all`; and `low` stores to the stack pointer, as no object is
bound in the beginning. -/
def hoardClass : ClassDeclaration where
  name := "A"
  declarations := [⟨.ofObject, ⟨.int, "f", ["g"]⟩⟩]
  subroutines := [hoardNew, hoardLow, hoardArray "all" 32767, hoardArray "one" 1]

def hoardCode : List Instruction :=
  [.function "A.new" 0, .push .constant 2, .call "Memory.alloc" 1, .pop .pointer 0,
    .push .constant 7, .pop .this 1, .push .pointer 0, .command .ret,
    .function "A.low" 0, .push .constant 0, .pop .this 0, .call "A.new" 0, .command .ret,
    .function "A.all" 0, .push .constant 32767, .call "Array.new" 1, .command .ret,
    .function "A.one" 0, .push .constant 1, .call "Array.new" 1, .command .ret]

def hoardProgram : Program := .ofInstructions hoardCode

theorem hoardClass_code : hoardClass.code = hoardCode := by decide

theorem hoardClass_compiles : hoardClass.Compiles (.ofString hoardSource) := by
  unfold hoardSource Source.ofString
  simp only [String.toList_append, String.reduceToList]
  decide +kernel

theorem load_hoard :
    load (String.join [Instruction.listing hoardCode]) = .ok (ofProgram hoardProgram) := by
  rw [hoardProgram, ← hoardClass_code]
  exact load_of_compiles hoardClass_compiles (by decide)

theorem functions_hoard : hoardProgram.functions["A.new"]? = some 0 ∧
    hoardProgram.functions["A.low"]? = some 8 ∧ hoardProgram.functions["A.all"]? = some 13 ∧
      hoardProgram.functions["A.one"]? = some 17 := by
  refine ⟨?_, ?_, ?_, ?_⟩ <;> exact Program.functions_of_getElem? rfl (by decide)

theorem instruction?_hoard {i : Instruction} (hp : m.program = hoardProgram)
    (hi : hoardCode[m.pc]? = some i) : m.instruction? = some i :=
  (instruction?_of_program hp).trans hi

/-- After a request that was refused for want of memory, one cell can be asked for. -/
theorem exists_ledger_hoard : ∃ place m, Running (ofProgram hoardProgram) m ∧
    Ledger (ofProgram hoardProgram) [⟨place, saturate 32767, .error .outOfMemory⟩] m ∧
      m.asked? = some 1 := by
  obtain ⟨m, henter, hpc, hsp, -⟩ := exists_entered functions_hoard.2.2.1
  have hcode : Placed m.program m.pc
      [.function "A.all" 0, .push .constant 32767, .call "Array.new" 1] := by
    rw [(Ledger.first henter).program, hpc]
    exact ⟨rfl, rfl, rfl, trivial⟩
  obtain ⟨m₁, hw, h, hasked, hsp₁⟩ :=
    (Ledger.first henter).walk_array hcode hsp (by decide) (by decide)
  have hanswer : answerAt m₁.heapEnd (saturate 32767) = .error .outOfMemory := by
    rw [h.heapEnd]
    decide
  have hfault := run_step_refused hasked hanswer
  have hserved := Served.loaded.of_walk henter hw (by decide) hfault
  have hafter : after Machine.step m₁ = m₁.next.taken (saturate 32767) := by
    rw [after, hfault, left]
  rw [← hafter] at hserved
  have hprogram : (after Machine.step m₁).program = hoardProgram := by
    rw [hafter]
    exact h.program
  -- the next run begins where the fault has left the machine
  have hentry : (after Machine.step m₁).program.functions["A.one"]? = some 17 := by
    rw [hprogram, functions_hoard.2.2.2]
  have henter' := run_enterFunction 0 none hentry
  have hsp' : ((after Machine.step m₁).entered "A.one" 0 none 17).word 0 = saturate 257 := by
    rw [word_entered, hafter]
    exact hsp₁
  have hcode' : Placed ((after Machine.step m₁).entered "A.one" 0 none 17).program 17
      [.function "A.one" 0, .push .constant 1, .call "Array.new" 1] := by
    rw [(h.next henter').program]
    exact ⟨rfl, rfl, rfl, trivial⟩
  obtain ⟨m₂, hw', h', hasked', -⟩ :=
    (h.next henter').walk_array hcode' hsp' (by decide) (by decide)
  have hlog : m₁.request?.toList = [⟨m₁.pc, saturate 32767, .error .outOfMemory⟩] := by
    rw [request?_eq, hasked, ← hanswer]
    rfl
  rw [hlog] at h'
  exact ⟨m₁.pc, m₂, (Running.enter hserved henter').walk hw', h', hasked'⟩

/-- One cell can be had at first, but not after the request that was refused. -/
theorem succeeds_one :
    (∃ m, Ledger (ofProgram hoardProgram) [] m ∧ m.asked? = some 1 ∧
      ∃ m', step.run m = .ok none m') ∧
    ∃ log m, Ledger (ofProgram hoardProgram) log m ∧ granted log = 0 ∧ m.asked? = some 1 ∧
      ¬∃ m', step.run m = .ok none m' := by
  constructor
  · obtain ⟨m, henter, hpc, hsp, -⟩ := exists_entered functions_hoard.2.2.2
    have hcode : Placed m.program m.pc
        [.function "A.one" 0, .push .constant 1, .call "Array.new" 1] := by
      rw [(Ledger.first henter).program, hpc]
      exact ⟨rfl, rfl, rfl, trivial⟩
    obtain ⟨m₁, -, h, hasked, -⟩ :=
      (Ledger.first henter).walk_array hcode hsp (by decide) (by decide)
    exact ⟨m₁, h, hasked, ((succeeds_iff load_hoard).2 [] _ 1 h hasked).1.2
      ⟨by decide, by simp, by decide⟩⟩
  · obtain ⟨place, m, -, h, hasked⟩ := exists_ledger_hoard
    refine ⟨_, m, h, rfl, hasked, fun hsucceeds => ?_⟩
    obtain ⟨-, hnever, -⟩ := ((succeeds_iff load_hoard).2 _ m 1 h hasked).1.1 hsucceeds
    exact hnever _ List.mem_cons_self rfl

/-- A request can fail although there is room for it beside all that has been handed out. -/
theorem not_succeeds_iff_room : ¬∀ (text : String) (m₀ m : Machine) (log : List Request)
    (size : Word), load text = .ok m₀ → Running m₀ m → Ledger m₀ log m → m.asked? = some size →
      0 ≤ size → ((∃ m', step.run m = .ok none m') ↔
        granted log + size.toNatClampNeg < 32768 - 2048) := by
  intro hall
  obtain ⟨place, m, hr, h, hasked⟩ := exists_ledger_hoard
  have hroom : 0 + (1 : Word).toNatClampNeg < 32768 - 2048 := by decide
  obtain ⟨m', hrun⟩ := (hall _ _ m _ 1 load_hoard hr h hasked (by decide)).2 hroom
  -- the end of the heap is past that of the memory
  have hheap : m.heapEnd = 2048 + 32767 := h.heapEnd
  have hanswer : answerAt m.heapEnd 1 = .error .outOfMemory := by
    rw [hheap]
    decide
  rw [run_step_refused hasked hanswer] at hrun
  cases hrun

end Jack.Machine

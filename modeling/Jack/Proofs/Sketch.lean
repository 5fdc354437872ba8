import Jack.Proofs.Activation

/-!
# Working out a run

A sketch says where a machine stands in its function and what its cells hold, in a form that can be
computed with. What it makes of an instruction the machine does (`carries_perform`); so the walks of a
given machine are worked out by computing (`Draws.exists_walk`, `Draws.room`).
-/

namespace Jack.Machine

/-! ## Sketches -/

/-- What is known of a machine that stays in one function. -/
structure Sketch where
  pc : Nat
  /-- What the cells hold, the latest entry first; the others are zero. -/
  cells : List (Nat × Word)
  statics : Nat → Word := fun _ => 0

/-- The address that a word denotes. -/
def number? (word : Word) : Option Nat := if 0 ≤ word then some word.toNatClampNeg else none

namespace Sketch

def word (s : Sketch) (a : Nat) : Word := (s.cells.lookup a).getD 0

def next (s : Sketch) : Sketch := { s with pc := s.pc + 1 }

def put (s : Sketch) (a : Nat) (value : Word) : Sketch := { s with cells := (a, value) :: s.cells }

/-- With a value on top of so many cells. -/
def pushed (s : Sketch) (sp : Nat) (value : Word) : Sketch :=
  (s.put sp value).put 0 (saturate (sp + 1))

def push? (s : Sketch) (value : Word) : Option Sketch := do
  let sp ← number? (s.word 0)
  if sp < 32767 then some (s.pushed sp value) else none

/-- The value on top, and what is left without it. -/
def pop? (s : Sketch) : Option (Word × Sketch) := do
  let sp ← number? (s.word 0)
  if 0 < sp then some ((s.put 0 (saturate (sp - 1))).word (sp - 1), s.put 0 (saturate (sp - 1)))
  else none

/-- The cell in which a segment begins. -/
def origin? (s : Sketch) (segment : Segment) : Option Nat :=
  match base? segment with
  | some r => number? (s.word r.address)
  | none => fixed? segment

/-- The cell of an element. -/
def cell? (s : Sketch) (index : Nat) (segment : Segment) : Option Nat := do
  let base ← s.origin? segment
  if base + index ≤ 32767 then some (base + index) else none

def read? (s : Sketch) (index : Nat) : Segment → Option Word
  | .constant => some (saturate index)
  | .statics => some (s.statics index)
  | segment => s.word <$> s.cell? index segment

def unary? (s : Sketch) (f : Word → Word) : Option Sketch := do
  let (a, s) ← s.pop?
  s.push? (f a)

def binary? (s : Sketch) (f : Word → Word → Word) : Option Sketch := do
  let (b, s) ← s.pop?
  let (a, s) ← s.pop?
  s.push? (f a b)

def command? (s : Sketch) : Command → Option Sketch
  | .ret => none
  | .neg => s.unary? (- ·)
  | .not => s.unary? (~~~ ·)
  | .add => s.binary? (· + ·)
  | .sub => s.binary? (· - ·)
  | .and => s.binary? (· &&& ·)
  | .or => s.binary? (· ||| ·)
  | .eq => s.binary? fun a b => wordOfBool (a = b)
  | .gt => s.binary? fun a b => wordOfBool (b < a)
  | .lt => s.binary? fun a b => wordOfBool (a < b)

/-- With so many zeros on top. -/
def clear? (s : Sketch) : Nat → Option Sketch
  | 0 => some s
  | count + 1 => do (← s.push? 0).clear? count

section Code

variable (code : List Instruction) (function : String)

def jump? (s : Sketch) (name : String) : Option Sketch :=
  let pc := code.idxOf (.label name)
  if code[pc]? = some (.label name) ∧ Program.functionAt code pc = function then some { s with pc }
  else none

/-- What an instruction makes of a sketch. Calls and returns are left out. -/
def perform? (s : Sketch) : Instruction → Option Sketch
  | .push segment index => do s.push? (← s.read? index segment)
  | .pop segment index => do
    let (value, s) ← s.pop?
    return s.put (← s.cell? index segment) value
  | .command action => s.command? action
  | .label _ => some s
  | .goto name => s.jump? code function name
  | .ifGoto name => do
    let (value, s) ← s.pop?
    if value ≠ 0 then s.jump? code function name else some s
  | .function _ localCount => s.clear? localCount
  | .call _ _ => none

def step? (s : Sketch) : Option Sketch := do s.next.perform? code function (← code[s.pc]?)

/-- The sketches of so many steps, or of as many as there are. -/
def trail : Nat → Sketch → List Sketch
  | 0, s => [s]
  | n + 1, s => s :: (s.step? code function).elim [] (trail n)

end Code

end Sketch

/-! ## What a sketch tells -/

/-- The sketch is true of the machine, which differs from the one at the start only in its memory and
in where it stands. -/
structure Draws (start : Machine) (s : Sketch) (m : Machine) : Prop where
  control : m = { start with ram := m.ram, pc := s.pc }
  word : ∀ a, m.word a = s.word a
  statics : ∀ index, start.statics.getD (start.className, index) 0 = s.statics index

/-- The computation takes a machine of the one sketch to a machine of the other. -/
def Carries {α : Type} (start : Machine) (x : Exec α) (s : Sketch) (a : α) (s' : Sketch) : Prop :=
  ∀ m, Draws start s m → ∃ m', x.run m = .ok a m' ∧ Draws start s' m'

variable {α β : Type} {start m m' : Machine} {s s' s'' : Sketch} {value : Word} {segment : Segment}
  {a index n : Nat}

theorem number?_eq_some {w : Word} (h : number? w = some n) : w = saturate n ∧ n ≤ 32767 := by
  obtain ⟨hpos, h⟩ := Option.ite_none_right_eq_some.1 h
  obtain ⟨k, hle, rfl⟩ := exists_saturate hpos
  rw [toNatClampNeg_saturate hle, Option.some.injEq] at h
  exact h ▸ ⟨rfl, hle⟩

theorem Sketch.word_put (s : Sketch) (a b : Nat) (value : Word) :
    (s.put a value).word b = if a = b then value else s.word b := by
  simp only [word, put, List.lookup_cons]
  by_cases h : b = a
  · simp [h]
  · rw [if_neg (Ne.symm h), beq_false_of_ne h]

theorem Draws.put (h : Draws start s m) (value : Word) (ha : a ≤ 32767) :
    Draws start (s.put a value) (m.put a value) where
  control := by
    rw [h.control]
    rfl
  word b := by rw [word_put_of_lt _ _ ha, Sketch.word_put, h.word]
  statics := h.statics

theorem Draws.pushed {sp : Nat} (h : Draws start s m) (value : Word) (hsp : sp ≤ 32767) :
    Draws start (s.pushed sp value) (m.pushed sp value) :=
  (h.put value hsp).put _ (Nat.zero_le _)

theorem Draws.next (h : Draws start s m) : Draws start s.next m.next where
  control := by
    rw [h.control]
    rfl
  word := h.word
  statics := h.statics

namespace Carries

theorem bind {x : Exec α} {f : α → Exec β} {a : α} {b : β} (h : Carries start x s a s')
    (hf : Carries start (f a) s' b s'') : Carries start (x >>= f) s b s'' := by
  intro m hm
  obtain ⟨m', hrun, hm'⟩ := h m hm
  obtain ⟨m'', hrun', hm''⟩ := hf m' hm'
  exact ⟨m'', by simp only [run_bind, hrun, hrun'], hm''⟩

theorem done {x : Exec α} {a : α} (h : Carries start x s a s') (b : β) :
    Carries start (do let _ ← x; return b) s b s' :=
  h.bind fun m hm => ⟨m, rfl, hm⟩

end Carries

/-! ## Instructions -/

theorem carries_push (h : s.push? value = some s') : Carries start (push value) s () s' := by
  obtain ⟨sp, hsp, h⟩ := Option.bind_eq_some_iff.1 h
  obtain ⟨hlt, h⟩ := Option.ite_none_right_eq_some.1 h
  obtain rfl := Option.some.inj h
  intro m hm
  have hstack := (hm.word 0).trans (number?_eq_some hsp).1
  exact ⟨_, run_push_of_room value hstack hlt, hm.pushed value (Nat.le_of_lt hlt)⟩

theorem carries_pop (h : s.pop? = some (value, s')) : Carries start pop s value s' := by
  obtain ⟨sp, hsp, h⟩ := Option.bind_eq_some_iff.1 h
  obtain ⟨hpos, h⟩ := Option.ite_none_right_eq_some.1 h
  obtain ⟨rfl, rfl⟩ := Prod.mk.inj (Option.some.inj h)
  obtain ⟨hsp, hle⟩ := number?_eq_some hsp
  obtain ⟨top, rfl⟩ := Nat.exists_eq_add_of_le' hpos
  intro m hm
  have hstack : m.word 0 = saturate (top + 1) := (hm.word 0).trans hsp
  have htop : (address (m.word 0 - 1)).run m = .ok top m := by
    rw [hstack, saturate_succ_sub hle]
    exact run_address_saturate m (Nat.le_of_succ_le hle)
  have hlow := hm.put (saturate top) (Nat.zero_le _)
  rw [Nat.add_sub_cancel, ← hlow.word]
  exact ⟨_, run_pop (hstack ▸ saturate_ne_minimum _) htop (Nat.lt_succ_of_lt hle), hlow⟩

theorem run_locate_of_cell? (h : Draws start s m) (ha : s.cell? index segment = some a) :
    (locate index segment).run m = .ok (.memory a) m ∧ a ≤ 32767 := by
  obtain ⟨base, hbase, ha⟩ := Option.bind_eq_some_iff.1 ha
  obtain ⟨hle, ha⟩ := Option.ite_none_right_eq_some.1 ha
  obtain rfl := Option.some.inj ha
  refine ⟨?_, hle⟩
  unfold Sketch.origin? at hbase
  split at hbase
  · rename_i hr
    obtain ⟨hword, hle'⟩ := number?_eq_some hbase
    exact run_locate_of_base hr ((h.word _).trans hword) hle'
  · exact run_locate_of_fixed hbase

theorem carries_readElement (h : s.read? index segment = some value) :
    Carries start (readElement segment index) s value s := by
  intro m hm
  refine ⟨m, ?_, hm⟩
  cases segment with
  | constant =>
    obtain rfl := Option.some.inj h
    rfl
  | statics =>
    obtain rfl := Option.some.inj h
    have hstatics : m.statics.getD (m.className, index) 0 = s.statics index := by
      rw [className, hm.control]
      exact hm.statics index
    exact congrArg (EStateM.Result.ok · m) hstatics
  | _ =>
    obtain ⟨a, ha, rfl⟩ := Option.map_eq_some_iff.1 h
    obtain ⟨hlocate, hle⟩ := run_locate_of_cell? hm ha
    simp only [readElement, run_bind, hlocate, run_cell m (Nat.lt_succ_of_le hle), hm.word]

theorem carries_writeElement (h : s.cell? index segment = some a) (value : Word) :
    Carries start (writeElement segment index value) s () (s.put a value) := by
  intro m hm
  obtain ⟨hlocate, hle⟩ := run_locate_of_cell? hm h
  refine ⟨_, ?_, hm.put value hle⟩
  simp only [writeElement, run_bind, hlocate, run_setCell m value (Nat.lt_succ_of_le hle)]

theorem carries_unary {f : Word → Word} (h : s.unary? f = some s') :
    Carries start (unary f) s () s' := by
  obtain ⟨⟨a, s₁⟩, hpop, hpush⟩ := Option.bind_eq_some_iff.1 h
  exact (carries_pop hpop).bind (carries_push hpush)

theorem carries_binary {f : Word → Word → Word} (h : s.binary? f = some s') :
    Carries start (binary f) s () s' := by
  obtain ⟨⟨b, s₁⟩, hpop, h⟩ := Option.bind_eq_some_iff.1 h
  obtain ⟨⟨a, s₂⟩, hpop', hpush⟩ := Option.bind_eq_some_iff.1 h
  exact (carries_pop hpop).bind ((carries_pop hpop').bind (carries_push hpush))

theorem carries_pushLocals {count : Nat} (h : s.clear? count = some s') :
    Carries start (pushLocals count) s () s' := by
  induction count generalizing s with
  | zero =>
    obtain rfl := Option.some.inj h
    exact fun m hm => ⟨m, rfl, hm⟩
  | succ count ih =>
    obtain ⟨s₁, hpush, h⟩ := Option.bind_eq_some_iff.1 h
    exact (carries_push hpush).bind (ih h)

theorem carries_runCommand {action : Command} (h : s.command? action = some s') :
    Carries start (runCommand action) s none s' := by
  cases action with
  | ret => cases h
  | neg | not => exact (carries_unary h).done none
  | add | sub | and | or => exact (carries_binary h).done none
  | eq | gt | lt =>
    rw [Sketch.command?] at h
    exact (carries_binary h).done none

section Code

variable {code : List Instruction} (hprogram : start.program = .ofInstructions code)
  (hnodup : (labelsOf code).Nodup)

include hprogram

theorem Draws.instruction? (h : Draws start s m) : m.instruction? = code[s.pc]? := by
  have hm : m.program = .ofInstructions code := by rw [h.control, hprogram]
  rw [instruction?_of_program hm, h.control]

include hnodup

theorem carries_jumpTo {name : String} (h : s.jump? code start.function name = some s') :
    Carries start (jumpTo name) s () s' := by
  obtain ⟨hlabel, h⟩ := Option.ite_none_right_eq_some.1 h
  obtain rfl := Option.some.inj h
  intro m hm
  have htable : m.program.labels[(m.function, name)]? = some (code.idxOf (.label name)) := by
    rw [hm.control, hprogram]
    exact Program.labels_eq_some.2 ⟨hlabel, fun pc hpc =>
      Nat.le_of_eq (eq_of_nodup_labels hnodup hlabel.1 hpc.1)⟩
  refine ⟨_, run_jumpTo htable, ?_, hm.word, hm.statics⟩
  rw [hm.control]

theorem carries_perform {i : Instruction} (h : s.perform? code start.function i = some s') :
    Carries start (perform i) s none s' := by
  cases i with
  | push segment index =>
    obtain ⟨value, hread, hpush⟩ := Option.bind_eq_some_iff.1 h
    exact (carries_readElement hread).bind ((carries_push hpush).done none)
  | pop segment index =>
    obtain ⟨⟨value, s₁⟩, hpop, h⟩ := Option.bind_eq_some_iff.1 h
    obtain ⟨a, ha, h⟩ := Option.bind_eq_some_iff.1 h
    obtain rfl := Option.some.inj h
    exact (carries_pop hpop).bind ((carries_writeElement ha value).done none)
  | command action => exact carries_runCommand h
  | label name =>
    obtain rfl := Option.some.inj h
    exact fun m hm => ⟨m, rfl, hm⟩
  | goto name => exact (carries_jumpTo hprogram hnodup h).done none
  | ifGoto name =>
    obtain ⟨⟨value, s₁⟩, hpop, h⟩ := Option.bind_eq_some_iff.1 h
    refine (carries_pop hpop).bind ?_
    by_cases hv : value = 0
    · rw [if_neg (not_not.2 hv)]
      obtain rfl : s₁ = s' := by simpa [hv] using h
      exact fun m hm => ⟨m, rfl, hm⟩
    · rw [if_pos hv]
      exact (carries_jumpTo hprogram hnodup (by simpa [hv] using h)).done none
  | function name localCount => exact (carries_pushLocals h).done none
  | call name argumentCount => cases h

/-- The machine takes the step that is worked out on the sketch, and it is no `return`. -/
theorem Draws.step (h : Draws start s m) (hs : s.step? code start.function = some s') :
    ∃ m', Walk 1 m m' ∧ Draws start s' m' := by
  obtain ⟨i, hi, hs⟩ := Option.bind_eq_some_iff.1 hs
  have hi' : m.instruction? = some i := (h.instruction? hprogram).trans hi
  obtain ⟨m', hrun, hm'⟩ := carries_perform hprogram hnodup hs m.next h.next
  refine ⟨m', .single ?_ ((run_step hi').trans hrun), hm'⟩
  rw [hi']
  rintro ⟨⟩
  cases hs

/-- The machine walks along the trail of the sketch. -/
theorem Draws.exists_walk {k : Nat} (h : Draws start s m)
    (hs : (s.trail code start.function n)[k]? = some s') : ∃ m', Walk k m m' ∧ Draws start s' m' := by
  induction k generalizing s m n with
  | zero =>
    obtain rfl : s = s' := by cases n <;> simpa [Sketch.trail] using hs
    exact ⟨m, .refl m, h⟩
  | succ k ih =>
    cases n with
    | zero => simp [Sketch.trail] at hs
    | succ n =>
      rw [Sketch.trail, List.getElem?_cons_succ] at hs
      cases hstep : s.step? code start.function with
      | none => simp [hstep] at hs
      | some s₁ =>
        rw [hstep] at hs
        obtain ⟨m₁, hw₁, hm₁⟩ := h.step hprogram hnodup hstep
        obtain ⟨m', hw, hm'⟩ := ih hm₁ hs
        exact ⟨m', Nat.add_comm k 1 ▸ hw₁.trans hw, hm'⟩

/-- If the trail comes to a `return` and the stack stays below the heap on it, it does so on all
walks. -/
theorem Draws.room (h : Draws start s m)
    (hend : ∃ last ∈ (s.trail code start.function n)[n]?, code[last.pc]? = some (.command .ret))
    (hlow : ∀ s' ∈ s.trail code start.function n, 0 ≤ s'.word 0 ∧ s'.word 0 ≤ 2048) (k : Nat) :
    Room k m := by
  intro j _ m' hw
  obtain ⟨last, hlast, hret⟩ := hend
  obtain ⟨m₁, hw₁, hm₁⟩ := h.exists_walk hprogram hnodup hlast
  have hi₁ : m₁.instruction? = some (.command .ret) := (hm₁.instruction? hprogram).trans hret
  have hlt : j < (s.trail code start.function n).length :=
    Nat.lt_of_le_of_lt (hw₁.le_of_return hi₁ hw) (List.getElem?_eq_some_iff.1 hlast).1
  obtain ⟨m₂, hw₂, hm₂⟩ := h.exists_walk hprogram hnodup (List.getElem?_eq_getElem hlt)
  obtain rfl := hw₂.unique hw
  obtain ⟨hpos, hle⟩ := hlow _ (List.getElem_mem hlt)
  obtain ⟨sp, hsp, hword⟩ := exists_saturate hpos
  refine ⟨sp, ?_, (hm₂.word 0).trans hword⟩
  rw [hword, Int16.le_iff_toInt_le, toInt_saturate hsp] at hle
  exact Int.ofNat_le.1 hle

end Code

/-! ## Where a run begins -/

/-- The sketch of a machine before its first run. -/
def Sketch.initial : Sketch where
  pc := 0
  cells := [(0, saturate stackBase)]

theorem draws_ofProgram (p : Program) : Draws (ofProgram p) .initial (ofProgram p) where
  control := rfl
  word a := by
    have hword : Sketch.initial.word a = if 0 = a then saturate stackBase else 0 :=
      Sketch.word_put ⟨0, [], fun _ => 0⟩ 0 a (saturate stackBase)
    rw [word_ofProgram, hword]
    simp only [stackBase, eq_comm]
  statics _ := Std.HashMap.getD_empty

/-- The sketch at the entry of a function. -/
def Sketch.entered (s : Sketch) (argumentCount entry : Nat) : Sketch :=
  { (s.put 2 (s.word 0 - saturate argumentCount)).put 1 (s.word 0) with pc := entry }

/-- At the entry of a function the run begins anew. -/
theorem Draws.entered {name : String} {argumentCount entry : Nat} {returnAddress : Option Nat}
    (h : Draws start s m) (hstatics : start.statics = ∅) :
    Draws (m.entered name argumentCount returnAddress entry) (s.entered argumentCount entry)
      (m.entered name argumentCount returnAddress entry) where
  control := rfl
  word a := by
    have hword : (s.entered argumentCount entry).word a =
        ((s.put 2 (s.word 0 - saturate argumentCount)).put 1 (s.word 0)).word a := rfl
    rw [word_entered, hword, Sketch.word_put, Sketch.word_put, h.word, h.word]
    simp only [eq_comm]
  statics index := by
    have hnone : s.statics index = 0 := by rw [← h.statics, hstatics, Std.HashMap.getD_empty]
    have hsame : (m.entered name argumentCount returnAddress entry).statics = ∅ := by
      rw [← hstatics, h.control]
      rfl
    rw [hsame, Std.HashMap.getD_empty]
    exact hnone.symm

/-- What a variable holds that is no field. -/
def Sketch.variableWord (s : Sketch) (site : Site) (symbol : Symbol) : Word :=
  match symbol.kind with
  | .argument => s.word (site.arg + symbol.index)
  | .localVar => s.word (site.lcl + symbol.index)
  | _ => s.statics symbol.index

open Syntax in
/-- The store with which the body of a subroutine begins. -/
def Sketch.entryStore (s : Sketch) (k : ClassDeclaration) (d : SubroutineDeclaration) (arg : Nat)
    (this : Word) : Store where
  this
  values name := match (bindings k d).resolve name with
    | some symbol => if symbol.kind = .localVar then 0 else s.variableWord (siteOf k d arg) symbol
    | none => 0
  heap := s.word

open Syntax in
theorem Draws.entryStore_eq {k : ClassDeclaration} {d : SubroutineDeclaration} {arg : Nat}
    (h : Draws m s m) :
    Machine.entryStore k d arg m = s.entryStore k d arg (objectOf d.kind arg m) := by
  have hvariable : ∀ symbol : Symbol,
      m.variableWord (siteOf k d arg) symbol = s.variableWord (siteOf k d arg) symbol := by
    intro symbol
    unfold variableWord Sketch.variableWord
    cases symbol.kind with
    | argument | localVar => exact h.word _
    | _ => exact h.statics _
  unfold Machine.entryStore Sketch.entryStore
  congr 1
  · funext name
    cases (bindings k d).resolve name with
    | none => rfl
    | some symbol => exact congrArg (if symbol.kind = .localVar then 0 else ·) (hvariable symbol)
  · exact funext h.word

end Jack.Machine

import Jack.Proofs.Sketch

/-!
# Running a subroutine

A compiled subroutine does what its body means. If its body calls nothing, the machine that has
entered it comes to a `return` just when the run of the body gives a value back, and then it has that
value on top of the stack and the memory that the run leaves (`reachesReturn_iff_returned`).
-/

namespace Jack

open Machine Syntax
open Token (Kind)

namespace Machine

variable {k : ClassDeclaration} {d : SubroutineDeclaration} {arg : Nat} {m : Machine}

/-- The machine walks to a `return`. -/
def ReachesReturn (m : Machine) : Prop :=
  ∃ n m', Walk n m m' ∧ m'.instruction? = some (.command .ret)

/-- The value of the run is on top of the stack, and the memory is as the run has left it. -/
structure Returns (k : ClassDeclaration) (d : SubroutineDeclaration) (arg : Nat) (m : Machine)
    (value : Option Word) (σ : Store) (m' : Machine) : Prop where
  frames : m'.frames = m.frames
  function : m'.function = m.function
  height : Height m' (arg + d.arity + d.localCount + value.toList.length)
  top : ∀ v ∈ value, m'.word (arg + d.arity + d.localCount) = v
  agrees : Agrees (siteOf k d arg) σ m' (arg + d.arity + d.localCount)

/-- Once at a `return` the machine does not divide by zero. -/
theorem not_dividesByZero_of_reachesReturn (h : ReachesReturn m) : ¬ DividesByZero m := by
  obtain ⟨n, m', hw, hret⟩ := h
  rintro ⟨j, m₁, m₂, hw₁, hcall, hfault⟩
  rcases Nat.le_total j n with hle | hle
  · obtain ⟨i, rfl⟩ := Nat.exists_eq_add_of_le hle
    obtain ⟨m₃, hw₃, hrest⟩ := hw.split
    obtain rfl := hw₃.unique hw₁
    cases hrest with
    | refl => simp [hret, Routine.call] at hcall
    | step _ hstep => simp [hfault] at hstep
  · obtain ⟨i, rfl⟩ := Nat.exists_eq_add_of_le hle
    obtain ⟨m₃, hw₃, hrest⟩ := hw₁.split
    obtain rfl := hw₃.unique hw
    obtain rfl := hrest.eq_zero hret
    cases hrest
    simp [hret, Routine.call] at hcall

theorem fits_of_compiles {source : Source} (hk : k.Compiles source) (hd : d ∈ k.subroutines) :
    Fits (bindings k d) d.body.mentions d.body.tokens where
  declares := (hk.rules.subroutines d hd).declares
  names name hname := by
    have hmem := (within_of_mem_subroutines hd).mem (.identifier name)
      (by simp [SubroutineDeclaration.tokens, d.body.identifier_mem hname])
    exact (hk.legal _ hmem : IsName name).ne_keyword .thisKeyword
  integers n hn := by
    have hmem := (within_of_mem_subroutines hd).mem (.integer n)
      (by simp [SubroutineDeclaration.tokens, hn])
    exact hk.legal _ hmem

/-- The machine that has entered a subroutine follows the run of its body. -/
theorem Entered.follows {source : Source} (h : Entered k d arg m) (hk : k.Compiles source)
    (hp : d.body.Plain) (limit : Nat) :
    Follows limit m (d.body.run (bindings k d) limit (entryStore k d arg m)) (fun _ _ => True)
      (Returns k d arg m) := by
  have hs : (siteOf k d arg).Sound := sound_siteOf (Nat.lt_of_lt_of_le (by decide) h.low)
  obtain ⟨i, w, j, m₁, hw, hsame, hstand⟩ := h.standing
  have hrun : Follows limit m₁ _ _ _ := d.body.follows hs hp (fits_of_compiles hk h.mem) hstand
  refine ((hrun.of_walk hw).of_le (by omega)).imp (fun _ _ _ => trivial) fun value σ m' hf => ?_
  refine ⟨?_, ?_, hf.height, hf.top, hf.agrees⟩
  · rw [hf.same, hsame]
  · rw [hf.same, hsame]

section Run

variable {source : Source} {σ : Store} (h : Entered k d arg m) (hk : k.Compiles source)
  (hp : d.body.Plain) (hret : d.body.EndsInReturn)
  (hin : ∀ limit, d.body.run (bindings k d) limit (entryStore k d arg m) ≠ .stopped .outside)

include h hk hp in
/-- What the run gives back, the machine returns with. -/
theorem Entered.returns {limit : Nat} {value : Option Word}
    (hrun : d.body.run (bindings k d) limit (entryStore k d arg m) = .returned value σ) :
    ∃ n m', Walk n m m' ∧ m'.instruction? = some (.command .ret) ∧
      Returns k d arg m value σ m' := by
  have hfollows := h.follows hk hp limit
  rwa [hrun] at hfollows

include h hk hp in
theorem Entered.dividesByZero {limit : Nat}
    (hrun : d.body.run (bindings k d) limit (entryStore k d arg m) = .stopped .divisionByZero) :
    DividesByZero m := by
  have hfollows := h.follows hk hp limit
  rwa [hrun] at hfollows

include h hk hp in
/-- What the limit cuts off is no shorter than the limit for the machine either. -/
theorem Entered.exists_walk_of_unfinished {limit : Nat}
    (hrun : d.body.run (bindings k d) limit (entryStore k d arg m) = .unfinished) :
    ∃ n, limit ≤ n ∧ ∃ m', Walk n m m' := by
  have hfollows := h.follows hk hp limit
  rwa [hrun] at hfollows

include h hk hp hret hin in
/-- A run that is not cut off gives something back or divides by zero. -/
theorem Entered.run_cases (limit : Nat) :
    (∃ value σ,
        d.body.run (bindings k d) limit (entryStore k d arg m) = .returned value σ) ∨
      d.body.run (bindings k d) limit (entryStore k d arg m) = .stopped .divisionByZero ∨
      d.body.run (bindings k d) limit (entryStore k d arg m) = .unfinished := by
  cases hrun : d.body.run (bindings k d) limit (entryStore k d arg m) with
  | done σ => exact absurd hrun (Block.run_ne_done hret)
  | returned value σ => exact .inl ⟨value, σ, rfl⟩
  | unfinished => exact .inr (.inr rfl)
  | stopped reason =>
    cases reason with
    | divisionByZero => exact .inr (.inl rfl)
    | outside => exact absurd hrun (hin _)
    | foreign =>
      exact absurd hrun (d.body.run_ne_foreign _ hp (hk.rules.subroutines d h.mem).declares)

include h hk hp hret hin in
/-- A machine that returns has done what a run does that gives something back. -/
theorem Entered.exists_run (hreach : ReachesReturn m) : ∃ limit value σ,
    d.body.run (bindings k d) limit (entryStore k d arg m) = .returned value σ := by
  obtain ⟨n, m', hw, hi⟩ := hreach
  obtain ⟨value, σ, hrun⟩ | hrun | hrun := h.run_cases hk hp hret hin (n + 1)
  · exact ⟨n + 1, value, σ, hrun⟩
  · exact absurd (h.dividesByZero hk hp hrun) (not_dividesByZero_of_reachesReturn ⟨n, m', hw, hi⟩)
  · obtain ⟨j, hj, m₁, hw₁⟩ := h.exists_walk_of_unfinished hk hp hrun
    have hle := hw.le_of_return hi hw₁
    omega

include h hk hp hret hin in
theorem Entered.exists_division (hdivides : DividesByZero m) : ∃ limit,
    d.body.run (bindings k d) limit (entryStore k d arg m) = .stopped .divisionByZero := by
  obtain ⟨n, m', m₂, hw, hcall, hfault⟩ := hdivides
  obtain ⟨value, σ, hrun⟩ | hrun | hrun := h.run_cases hk hp hret hin (n + 1)
  · obtain ⟨j, m₁, hw₁, hi, -⟩ := h.returns hk hp hrun
    exact absurd ⟨n, m', m₂, hw, hcall, hfault⟩ (not_dividesByZero_of_reachesReturn ⟨j, m₁, hw₁, hi⟩)
  · exact ⟨n + 1, hrun⟩
  · obtain ⟨j, hj, m₁, hw₁⟩ := h.exists_walk_of_unfinished hk hp hrun
    obtain ⟨i, rfl⟩ := Nat.exists_eq_add_of_le (show n ≤ j by omega)
    obtain ⟨m₃, hw₃, hrest⟩ := hw₁.split
    obtain rfl := hw₃.unique hw
    cases hrest with
    | refl => omega
    | step _ hstep => simp [hfault] at hstep

end Run

/-- A subroutine without calls does what its body means: the machine that has entered it returns just
when the run of the body gives something back, with its value and its store, and divides by zero just
when the run does. -/
theorem reachesReturn_iff_returned {source text : String} {m₀ m₁ : Machine}
    {returnAddress : Option Nat} (hc : compileText source = .ok text) (hl : load text = .ok m₀)
    (hk : k.Compiles (.ofString source)) (hd : d ∈ k.subroutines)
    (honce : k.subroutines.countP (·.name = d.name) = 1) (hp : d.body.Plain)
    (hret : d.body.EndsInReturn) (hprogram : m₁.program = m₀.program) (hlow : 256 ≤ arg)
    (hsp : m₁.word 0 = saturate (arg + d.arity))
    (henter : (enterFunction (k.name ++ "." ++ d.name) d.arity returnAddress).run m₁ = .ok () m)
    (halloc : d.kind = .constructor → m.heapEnd + k.declared.countP (·.kind = .field) < 32768)
    (hfits : arg + d.arity + d.localCount ≤ 2048) (hroom : ∀ n, Room n m)
    (hin : ∀ limit, d.body.run (bindings k d) limit (entryStore k d arg m) ≠ .stopped .outside) :
    (ReachesReturn m ↔ ∃ limit value σ,
        d.body.run (bindings k d) limit (entryStore k d arg m) = .returned value σ) ∧
      (∀ limit value σ,
        d.body.run (bindings k d) limit (entryStore k d arg m) = .returned value σ →
          ∃ n m', Walk n m m' ∧ m'.instruction? = some (.command .ret) ∧
            Returns k d arg m value σ m') ∧
      (DividesByZero m ↔ ∃ limit,
        d.body.run (bindings k d) limit (entryStore k d arg m) = .stopped .divisionByZero) := by
  have hloaded : m₀.program = .ofInstructions k.code := by
    rw [compileText, hk.compileClass_eq] at hc
    obtain rfl : Instruction.listing k.code = text := by simpa [Functor.map, Except.map] using hc
    rw [((load_listing (k.named hk.legal)).1 hl).2]
    rfl
  have h : Entered k d arg m := ⟨hd, honce, begins_of_enterFunction (hprogram.trans hloaded) hsp
    (by omega) (by omega) henter, hlow, hfits, hroom, halloc⟩
  refine ⟨⟨h.exists_run hk hp hret hin, ?_⟩, fun limit value σ hrun => h.returns hk hp hrun,
    ⟨h.exists_division hk hp hret hin, ?_⟩⟩
  · rintro ⟨limit, value, σ, hrun⟩
    obtain ⟨n, m', hw, hi, -⟩ := h.returns hk hp hrun
    exact ⟨n, m', hw, hi⟩
  · rintro ⟨limit, hrun⟩
    exact h.dividesByZero hk hp hrun

/-! ## A class whose objects are rows of numbers -/

def rowSource : String := String.join [
  "class Row \x7b static int made; ",
  "field Array cells; ",
  "function int fill(Array a, int n) \x7b ",
  "var int i; while (i < n) \x7b ",
  "let a[i] = i + 5; let i = i + 1; \x7d ",
  "if (a[1] > a[0]) \x7b let n = a[1]; \x7d ",
  "return n; \x7d ",
  "method int grow(int n) \x7b var int last; ",
  "let cells = Array.new(n); ",
  "let made = made + 1; ",
  "let last = Row.fill(cells, n); ",
  "if (last = made) \x7b do grow(n); \x7d ",
  "else \x7b let last = ~last; \x7d ",
  "return last; \x7d \x7d"]

/-- The first cells are numbered from five on. -/
def fillSubroutine : SubroutineDeclaration where
  kind := .function
  returnType := some .int
  name := "fill"
  parameters := [⟨.object "Array", "a"⟩, ⟨.int, "n"⟩]
  locals := [⟨.int, "i", []⟩]
  body :=
    .cons (.loop (.operation (.term (.variable "i")) .less (.variable "n"))
      (.cons (.assignElement "a" (.term (.variable "i"))
          (.operation (.term (.variable "i")) .add (.integer 5)))
        (.cons (.assign "i" (.operation (.term (.variable "i")) .add (.integer 1))) .nil)))
    (.cons (.conditional (.operation (.term (.element "a" (.term (.integer 1)))) .greater
        (.element "a" (.term (.integer 0))))
      (.cons (.assign "n" (.term (.element "a" (.term (.integer 1))))) .nil))
    (.cons (.giveBack (some (.term (.variable "n")))) .nil))

/-- It counts the rows that are made, and calls a function and itself. -/
def growSubroutine : SubroutineDeclaration where
  kind := .method
  returnType := some .int
  name := "grow"
  parameters := [⟨.int, "n"⟩]
  locals := [⟨.int, "last", []⟩]
  body :=
    .cons (.assign "cells" (.term (.call (.qualified "Array" "new"
      (.cons (.term (.variable "n")) .nil)))))
    (.cons (.assign "made" (.operation (.term (.variable "made")) .add (.integer 1)))
    (.cons (.assign "last" (.term (.call (.qualified "Row" "fill"
      (.cons (.term (.variable "cells")) (.cons (.term (.variable "n")) .nil))))))
    (.cons (.alternative (.operation (.term (.variable "last")) .equal (.variable "made"))
      (.cons (.call (.own "grow" (.cons (.term (.variable "n")) .nil))) .nil)
      (.cons (.assign "last" (.term (.unary .complement (.variable "last")))) .nil))
    (.cons (.giveBack (some (.term (.variable "last")))) .nil))))

def rowClass : ClassDeclaration where
  name := "Row"
  declarations := [⟨.ofClass, ⟨.int, "made", []⟩⟩, ⟨.ofObject, ⟨.object "Array", "cells", []⟩⟩]
  subroutines := [fillSubroutine, growSubroutine]

theorem rowClass_compiles : rowClass.Compiles (.ofString rowSource) := by
  unfold rowSource Source.ofString
  simp only [String.toList_join, List.flatMap_cons, List.flatMap_nil, String.reduceToList]
  decide +kernel

/-- The class of the source has one method. -/
theorem eq_growSubroutine (hk : k.Compiles (.ofString rowSource)) (hd : d ∈ k.subroutines)
    (hname : "Row.grow" = k.name ++ "." ++ d.name) : k = rowClass ∧ d = growSubroutine := by
  obtain rfl := hk.unique rowClass_compiles
  obtain rfl | rfl : d = fillSubroutine ∨ d = growSubroutine := by simpa [rowClass] using hd
  · exact absurd hname (by decide)
  · exact ⟨rfl, rfl⟩

theorem isIn_growSubroutine : (growSubroutine.definition rowClass 1 1).IsIn rowClass.code :=
  rowClass.isIn_code_iff.2 (List.mem_cons_of_mem _ (List.mem_singleton.2 rfl))

def rowProgram : Program := .ofInstructions rowClass.code

theorem compileText_row : compileText rowSource = .ok (Instruction.listing rowClass.code) :=
  compileText_eq_ok_iff.2 ⟨rowClass, rowClass_compiles, rfl⟩

theorem load_row : load (Instruction.listing rowClass.code) = .ok (ofProgram rowProgram) :=
  (load_listing (rowClass.named rowClass_compiles.legal)).2 ⟨by decide, rfl⟩

theorem functions_fill : rowProgram.functions["Row.fill"]? = some 0 :=
  @Program.functions_of_getElem? _ _ _ 1 (by decide) (by decide)

/-- The machine before a call of `fill`, with an array at 3000 and the number two. -/
def fillCaller : Machine := ((ofProgram rowProgram).pushed 256 3000).pushed 257 2

def fillEntered : Machine := fillCaller.entered "Row.fill" 2 none 0

def fillSketch : Sketch := (Sketch.initial.pushed 256 3000).pushed 257 2

theorem draws_fillCaller : Draws (ofProgram rowProgram) fillSketch fillCaller :=
  ((draws_ofProgram rowProgram).pushed 3000 (by omega)).pushed 2 (by omega)

theorem draws_fillEntered : Draws fillEntered (fillSketch.entered 2 0) fillEntered :=
  draws_fillCaller.entered rfl

theorem room_fillEntered (n : Nat) : Room n fillEntered :=
  @Draws.room _ _ _ 72 _ rfl (by decide) draws_fillEntered (by decide +kernel) (by decide +kernel) n

/-- The run of `fill` gives back six, and leaves five and six in the array. -/
theorem run_fill : ∃ σ, fillSubroutine.body.run (bindings rowClass fillSubroutine) 3
      (entryStore rowClass fillSubroutine 256 fillEntered) = .returned (some 6) σ ∧
    σ.heap 3000 = 5 ∧ σ.heap 3001 = 6 := by
  have hthis : objectOf fillSubroutine.kind 256 fillEntered = 0 :=
    (draws_fillEntered.word 3).trans (by decide)
  have hrun : (match fillSubroutine.body.run (bindings rowClass fillSubroutine) 3
      ((fillSketch.entered 2 0).entryStore rowClass fillSubroutine 256 0) with
    | .returned value σ => decide (value = some 6 ∧ σ.heap 3000 = 5 ∧ σ.heap 3001 = 6)
    | _ => false) = true := by decide +kernel
  rw [draws_fillEntered.entryStore_eq, hthis]
  split at hrun
  · rename_i value σ heq
    obtain ⟨rfl, hcells⟩ := of_decide_eq_true hrun
    exact ⟨σ, heq, hcells⟩
  · cases hrun

theorem plain_fill : fillSubroutine.body.Plain := by
  simp [fillSubroutine, Block.Plain, Statement.Plain, Expression.Plain, Term.Plain]

/-- The loop, the branch and the stores of `fill` come out as they are meant. -/
theorem reachesReturn_fill : ReachesReturn fillEntered ∧ ¬ DividesByZero fillEntered ∧
    ∃ n m', Walk n fillEntered m' ∧ m'.instruction? = some (.command .ret) ∧ m'.word 259 = 6 ∧
      m'.word 3000 = 5 ∧ m'.word 3001 = 6 := by
  obtain ⟨σ, hrun, hfirst, hsecond⟩ := run_fill
  have hends := Block.run_eq_or_unfinished (hrun.trans_ne (by simp))
  have hsp : fillCaller.word 0 = saturate (256 + fillSubroutine.arity) := draws_fillCaller.word 0
  have h := @reachesReturn_iff_returned rowClass fillSubroutine 256 fillEntered _ _ _ fillCaller none
    compileText_row load_row rowClass_compiles
    List.mem_cons_self (by decide) plain_fill trivial rfl (by decide) hsp
    (run_enterFunction 2 none functions_fill) (by decide) (by decide) room_fillEntered
    (fun limit => by rcases hends limit with h | h <;> simp [h, hrun])
  refine ⟨h.1.2 ⟨3, _, σ, hrun⟩, ?_, ?_⟩
  · rw [h.2.2]
    rintro ⟨limit, hstop⟩
    rcases hends limit with h | h <;> simp [h, hrun] at hstop
  · obtain ⟨n, m', hw, hret, hm'⟩ := h.2.1 3 _ σ hrun
    exact ⟨n, m', hw, hret, hm'.top 6 rfl, (hm'.agrees.heap 3000 (by decide) (by decide)).trans hfirst,
      (hm'.agrees.heap 3001 (by decide) (by decide)).trans hsecond⟩

end Machine

end Jack

import Jack.Proofs.Memory

/-!
# Running the code of statements

The machine follows the run of a statement (`Statement.follows`, `Block.follows`): when the run comes
to the end of the statement, so does the machine at the end of the code; when the run gives a value
back, the machine comes to a `return` with that value on top; when the run divides by zero, the
machine does; and as long as the run stays in a loop, the machine walks on.
-/

namespace Jack

open Machine Syntax
open Token (Kind)

namespace Machine

/-! ## Code with labels -/

/-- The code stands at the address, and its labels are known to be there. -/
def Located (p : Program) (function : String) : Nat → List Instruction → Prop
  | _, [] => True
  | pc, i :: rest => p.code[pc]? = some i ∧
      (∀ name, i = .label name → p.labels[(function, name)]? = some pc) ∧
      Located p function (pc + 1) rest

section Located

variable {p : Program} {function : String} {pc : Nat} {first rest : List Instruction}

theorem located_append : Located p function pc (first ++ rest) ↔
    Located p function pc first ∧ Located p function (pc + first.length) rest := by
  induction first generalizing pc with
  | nil => simp [Located]
  | cons i first ih =>
    rw [List.cons_append, Located, Located, ih, List.length_cons, Nat.add_right_comm, Nat.add_assoc,
      and_assoc, and_assoc]

theorem Located.placed (h : Located p function pc first) : Placed p pc first := by
  induction first generalizing pc with
  | nil => trivial
  | cons i first ih => exact ⟨h.1, ih h.2.2⟩

theorem Located.label {name : String} (h : Located p function pc (.label name :: rest)) :
    p.labels[(function, name)]? = some pc := h.2.1 name rfl

end Located

variable {m : Machine} {sp : Nat}

/-! ## Jumps -/

theorem run_jumpTo {name : String} {pc : Nat}
    (h : m.program.labels[(m.function, name)]? = some pc) :
    (jumpTo name).run m = .ok () { m with pc } := by
  simp only [jumpTo, run_bind, run_get, h, run_set]

theorem walk_label {name : String} (hi : m.instruction? = some (.label name)) :
    Walk 1 m m.next := by
  refine .single (by simp [hi]) ?_
  rw [run_step hi]
  rfl

theorem walk_goto {name : String} {pc : Nat} (hi : m.instruction? = some (.goto name))
    (h : m.program.labels[(m.function, name)]? = some pc) : Walk 1 m { m with pc } := by
  refine .single (by simp [hi]) ?_
  rw [run_step hi]
  simp only [perform, run_bind, run_jumpTo (m := m.next) h, run_pure]
  rfl

/-- Only the word with all bits set has a complement of zero. -/
theorem complement_ne_zero_iff (v : Word) : ~~~v ≠ 0 ↔ v ≠ -1 := by
  refine not_congr ⟨fun h => ?_, fun h => by rw [h]; decide⟩
  rw [← Int16.not_not (a := v), h]
  decide

/-- The condition on top is turned over, and the machine jumps if something is left of it. -/
theorem walk_branch {name : String} {pc : Nat} (hh : Height m (sp + 1)) (hlow : 4 < sp)
    (hcode : Placed m.program m.pc [.command .not, .ifGoto name])
    (h : m.program.labels[(m.function, name)]? = some pc) :
    ∃ m', Walk 2 m m' ∧ Extends m sp m' ∧ Height m' sp ∧
      m'.pc = if m.word sp = -1 then m.pc + 2 else pc := by
  obtain ⟨hnot, hif, -⟩ := hcode
  have hhigh := hh.high
  have hi : m.instruction? = some (.command .not) := hnot
  have hstep : step.run m = .ok none (m.next.pushed sp (~~~m.word sp)) := by
    rw [run_step hi]
    simp only [perform, runCommand, run_bind,
      run_unary (m := m.next) (~~~ ·) hh.stack (by omega) (by omega), run_pure]
    rfl
  have hd := delivers_pushed m (~~~m.word sp) hlow (by omega)
  set m₁ := m.next.pushed sp (~~~m.word sp) with hm₁
  have hi₁ : m₁.instruction? = some (.ifGoto name) := by
    rw [instruction?, hd.keeps.program, hd.pc]
    exact hif
  have hlabel : (m₁.next.lowered sp).program.labels[((m₁.next.lowered sp).function, name)]? =
      some pc := h
  have hpop := run_pop_of_pushed (m := m₁.next) hd.height.stack (by omega) (by omega)
  have htop : m₁.next.word sp = ~~~m.word sp := hd.top
  have hkeeps : ∀ a, a ≠ 0 → a ≠ 4 → a < sp ∨ 2048 ≤ a →
      (m₁.next.lowered sp).word a = m.word a := by
    intro a h0 h4 ha
    rw [word_lowered, if_neg h0]
    exact hd.keeps.cells a h0 h4 ha
  have hstep₁ : step.run m₁ = .ok none (if m.word sp = -1 then m₁.next.lowered sp
      else { m₁.next.lowered sp with pc }) := by
    rw [run_step hi₁]
    simp only [perform, run_bind, hpop, htop, complement_ne_zero_iff]
    by_cases hv : m.word sp = -1
    · simp [hv]
    · simp only [hv, not_false_eq_true, if_true, if_false, ne_eq, run_bind, run_jumpTo hlabel,
        run_pure]
  refine ⟨_, (Walk.single (by simp [hi]) hstep).trans (.single (by simp [hi₁]) hstep₁), ?_⟩
  have hstack : (m₁.next.lowered sp).word 0 = saturate sp := by rw [word_lowered, if_pos rfl]
  by_cases hv : m.word sp = -1
  · rw [if_pos hv, if_pos hv]
    exact ⟨⟨rfl, hkeeps⟩, ⟨hstack, hlow, by omega⟩, rfl⟩
  · rw [if_neg hv, if_neg hv]
    exact ⟨⟨rfl, hkeeps⟩, ⟨hstack, hlow, by omega⟩, rfl⟩

/-! ## Following a run -/

/-- What the machine does while the run has the outcome. -/
def Follows (limit : Nat) (m : Machine) (outcome : Outcome) (done : Store → Machine → Prop)
    (returned : Option Word → Store → Machine → Prop) : Prop :=
  match outcome with
  | .done σ => ∃ n m', Walk n m m' ∧ done σ m'
  | .returned value σ => ∃ n m', Walk n m m' ∧ m'.instruction? = some (.command .ret) ∧
      returned value σ m'
  | .stopped .divisionByZero => DividesByZero m
  | .stopped _ => True
  | .unfinished => ∃ n ≥ limit, ∃ m', Walk n m m'

namespace Follows

variable {limit limit' n : Nat} {m₁ : Machine} {outcome : Outcome} {σ : Store}
  {done done' : Store → Machine → Prop} {returned returned' : Option Word → Store → Machine → Prop}

theorem of_le (h : Follows limit m outcome done returned) (hle : limit' ≤ limit) :
    Follows limit' m outcome done returned := by
  cases outcome with
  | unfinished =>
    obtain ⟨n, hn, hw⟩ := h
    exact ⟨n, Nat.le_trans hle hn, hw⟩
  | stopped reason => cases reason <;> exact h
  | done σ => exact h
  | returned value σ => exact h

theorem of_walk (hw : Walk n m m₁) (h : Follows limit m₁ outcome done returned) :
    Follows (n + limit) m outcome done returned := by
  cases outcome with
  | done σ =>
    obtain ⟨k, m', hw', hp⟩ := h
    exact ⟨n + k, m', hw.trans hw', hp⟩
  | returned value σ =>
    obtain ⟨k, m', hw', hp⟩ := h
    exact ⟨n + k, m', hw.trans hw', hp⟩
  | stopped reason =>
    cases reason with
    | divisionByZero => exact .of_walk hw h
    | outside => trivial
    | foreign => trivial
  | unfinished =>
    obtain ⟨k, hk, m', hw'⟩ := h
    exact ⟨n + k, by omega, m', hw.trans hw'⟩

theorem imp (h : Follows limit m outcome done returned) (hd : ∀ σ m', done σ m' → done' σ m')
    (hr : ∀ value σ m', returned value σ m' → returned' value σ m') :
    Follows limit m outcome done' returned' := by
  cases outcome with
  | done σ =>
    obtain ⟨k, m', hw, hp⟩ := h
    exact ⟨k, m', hw, hd σ m' hp⟩
  | returned value σ =>
    obtain ⟨k, m', hw, hi, hp⟩ := h
    exact ⟨k, m', hw, hi, hr value σ m' hp⟩
  | stopped reason => cases reason <;> exact h
  | unfinished => exact h

/-- Behind the first part the second one is followed. -/
theorem andThen {next : Store → Outcome} (h : Follows limit m outcome done returned)
    (hn : ∀ σ n m', Walk n m m' → done σ m' → Follows limit m' (next σ) done' returned) :
    Follows limit m (outcome.andThen next) done' returned := by
  cases outcome with
  | done σ =>
    obtain ⟨n, m', hw, hp⟩ := h
    exact (of_walk hw (hn σ n m' hw hp)).of_le (by omega)
  | returned value σ => exact h
  | stopped reason => cases reason <;> exact h
  | unfinished => exact h

theorem withValue {α : Type} {x : Except Stop α} {next : α → Outcome} {post : α → Machine → Prop}
    (h : Attempt m n x post)
    (hn : ∀ a m', Walk n m m' → post a m' → Follows limit m' (next a) done returned) :
    Follows limit m (Outcome.withValue x next) done returned := by
  match x with
  | .error .divisionByZero => exact DividesWithin.dividesByZero h
  | .error .outside | .error .foreign => trivial
  | .ok a =>
    obtain ⟨m', hw, hp⟩ := h
    exact (of_walk hw (hn a m' hw hp)).of_le (by omega)

end Follows

/-! ## Statements -/

/-- The machine stands at the code with the store in its memory, and has all the room it needs. -/
structure Standing (site : Site) (σ : Store) (m : Machine) (sp : Nat) (code : List Instruction) :
    Prop where
  agrees : Agrees site σ m sp
  height : Height m sp
  located : Located m.program m.function m.pc code
  room : ∀ n, Room n m

/-- The value to be given back, if there is one, lies on top. -/
structure Finished (site : Site) (m : Machine) (sp : Nat) (value : Option Word) (σ : Store)
    (m' : Machine) : Prop where
  same : m' = { m with ram := m'.ram, statics := m'.statics, pc := m'.pc }
  agrees : Agrees site σ m' sp
  height : Height m' (sp + value.toList.length)
  top : ∀ v ∈ value, m'.word sp = v

variable {site : Site} {σ σ' : Store} {m' : Machine}

theorem Passed.trans {m₁ m₂ : Machine} {pc pc' : Nat} (h : Passed site m sp pc σ m₁)
    (h' : Passed site m₁ sp pc' σ' m₂) : Passed site m sp pc' σ' m₂ where
  same := by rw [h'.same, h.same]
  pc := h'.pc
  height := h'.height
  agrees := h'.agrees

theorem Passed.labels {pc : Nat} (h : Passed site m sp pc σ m') (name : String) :
    m'.program.labels[(m'.function, name)]? = m.program.labels[(m.function, name)]? := by
  rw [h.same]

theorem Finished.after {m₁ : Machine} {pc : Nat} {value : Option Word} (hp : Passed site m sp pc σ m₁)
    (h : Finished site m₁ sp value σ' m') : Finished site m sp value σ' m' where
  same := by rw [h.same, hp.same]
  agrees := h.agrees
  height := h.height
  top := h.top

namespace Standing

variable {first rest code : List Instruction}

theorem head (h : Standing site σ m sp (first ++ rest)) : Standing site σ m sp first :=
  ⟨h.agrees, h.height, (located_append.1 h.located).1, h.room⟩

/-- Further on in the code. -/
theorem onward {n pc : Nat} (h : Standing site σ m sp first) (hw : Walk n m m')
    (hp : Passed site m sp pc σ' m') (hl : Located m.program m.function pc rest) :
    Standing site σ' m' sp rest where
  agrees := hp.agrees
  height := hp.height
  located := by
    rw [hp.same, hp.pc]
    exact hl
  room k := Room.of_walk (h.room (n + k)) hw

theorem passed (hs : site.Sound) (h : Standing site σ m sp code) (pc : Nat) :
    Passed site m sp pc σ { m with pc } where
  same := rfl
  pc := rfl
  height := ⟨h.height.stack, h.height.low, h.height.high⟩
  agrees := h.agrees.onward hs ⟨rfl, fun _ _ _ _ => rfl⟩

theorem ifCondition {labels : BranchLabels} {body otherwise : List Instruction}
    (h : Standing site σ m sp (ifCode labels code body otherwise)) : Standing site σ m sp code := by
  simp only [ifCode, List.append_assoc] at h
  exact h.head

theorem skip_label {name : String} (hs : site.Sound)
    (h : Standing site σ m sp (.label name :: rest)) :
    ∃ m', Walk 1 m m' ∧ Passed site m sp (m.pc + 1) σ m' :=
  ⟨m.next, walk_label h.located.1, h.passed hs (m.pc + 1)⟩

theorem jump {name : String} {pc : Nat} (hs : site.Sound)
    (h : Standing site σ m sp (.goto name :: rest))
    (hl : m.program.labels[(m.function, name)]? = some pc) :
    ∃ m', Walk 1 m m' ∧ Passed site m sp pc σ m' :=
  ⟨{ m with pc }, walk_goto h.located.1 hl, h.passed hs pc⟩

/-- The condition is evaluated, and decides where the machine goes on. -/
theorem branch {x : Except Stop Word} {name : String} {pc : Nat} (hs : site.Sound)
    (h : Standing site σ m sp (code ++ ([.command .not, .ifGoto name] ++ rest)))
    (hx : Attempt m code.length x (Delivers m sp code.length))
    (hl : m.program.labels[(m.function, name)]? = some pc) :
    Attempt m (code.length + 2) x fun v =>
      Passed site m sp (if v = -1 then m.pc + code.length + 2 else pc) σ := by
  obtain ⟨-, hrest⟩ := located_append.1 h.located
  have hbranch := (located_append.1 hrest).1.placed
  match x with
  | .error .divisionByZero => exact DividesWithin.mono hx (Nat.le_add_right ..)
  | .error .outside | .error .foreign => trivial
  | .ok v =>
    obtain ⟨m₁, hw, hd⟩ := hx
    rw [← hd.keeps.program, ← hd.pc] at hbranch
    rw [← hd.keeps.program, ← hd.keeps.function] at hl
    obtain ⟨m₂, hw₂, he, hh, hpc⟩ := walk_branch hd.height h.height.low hbranch hl
    rw [hd.top, hd.pc] at hpc
    refine .ok (hw.trans hw₂) ⟨?_, hpc, hh, h.agrees.onward hs (hd.keeps.trans he (Nat.le_refl sp))⟩
    rw [he.control, hd.keeps.control]

end Standing

namespace Follows

variable {limit : Nat} {outcome : Outcome} {pc pc' : Nat}

/-- The machine goes a little further at the end. -/
theorem last {done done' : Store → Machine → Prop} {returned : Option Word → Store → Machine → Prop}
    (h : Follows limit m outcome done returned)
    (hd : ∀ σ n m', Walk n m m' → done σ m' → ∃ k m'', Walk k m' m'' ∧ done' σ m'') :
    Follows limit m outcome done' returned := by
  cases outcome with
  | done σ =>
    obtain ⟨n, m', hw, hp⟩ := h
    obtain ⟨k, m'', hw', hp'⟩ := hd σ n m' hw hp
    exact ⟨n + k, m'', hw.trans hw', hp'⟩
  | stopped reason => cases reason <;> exact h
  | returned value σ => exact h
  | unfinished => exact h

/-- What is passed on from a later place has been passed on from here. -/
theorem since {m₁ : Machine} (hp : Passed site m sp pc σ m₁)
    (h : Follows limit m₁ outcome (Passed site m₁ sp pc') (Finished site m₁ sp)) :
    Follows limit m₁ outcome (Passed site m sp pc') (Finished site m sp) :=
  h.imp (fun _ _ h' => hp.trans h') fun _ _ _ h' => .after hp h'

end Follows

/-! ## Branches and loops -/

section Structured

variable {limit : Nat} {condition body otherwise : List Instruction}

theorem follows_if {labels : BranchLabels} {x : Except Stop Word} {first second : Outcome}
    (hs : site.Sound) (h : Standing site σ m sp (ifCode labels condition body otherwise))
    (hx : Attempt m condition.length x (Delivers m sp condition.length))
    (hf : ∀ {m'}, Standing site σ m' sp body →
      Follows limit m' first (Passed site m' sp (m'.pc + body.length)) (Finished site m' sp))
    (ho : ∀ {m'}, Standing site σ m' sp otherwise →
      Follows limit m' second (Passed site m' sp (m'.pc + otherwise.length)) (Finished site m' sp)) :
    Follows limit m (.choose x first second)
      (Passed site m sp (m.pc + (ifCode labels condition body otherwise).length))
      (Finished site m sp) := by
  have h' : Standing site σ m sp (condition ++ ([.command .not, .ifGoto labels.otherwise] ++
      (body ++ ([.goto labels.done] ++ ([.label labels.otherwise] ++
        (otherwise ++ [.label labels.done])))))) := by
    simpa [ifCode] using h
  obtain ⟨-, h₁⟩ := located_append.1 h'.located
  obtain ⟨-, h₂⟩ := located_append.1 h₁
  obtain ⟨hbody, h₃⟩ := located_append.1 h₂
  obtain ⟨hgoto, h₄⟩ := located_append.1 h₃
  obtain ⟨helse, h₅⟩ := located_append.1 h₄
  obtain ⟨hother, hdone⟩ := located_append.1 h₅
  simp only [List.length_cons, List.length_nil, Nat.zero_add] at hbody hgoto helse hother hdone
  have hend : m.pc + (ifCode labels condition body otherwise).length =
      m.pc + condition.length + 2 + body.length + 1 + 1 + otherwise.length + 1 := by
    simp [ifCode]
    omega
  have hleave : ∀ σ' n m', Walk n m m' →
      Passed site m sp (m.pc + condition.length + 2 + body.length + 1 + 1 + otherwise.length) σ' m' →
      ∃ m'', Walk 1 m' m'' ∧
        Passed site m sp (m.pc + (ifCode labels condition body otherwise).length) σ' m'' := by
    intro σ' n m' hw hp
    obtain ⟨m'', hw', hp'⟩ := (h'.onward hw hp hdone).skip_label hs
    rw [hp.pc, ← hend] at hp'
    exact ⟨m'', hw', hp.trans hp'⟩
  refine Follows.withValue (h'.branch hs hx helse.label) fun v m₁ hw hp => ?_
  by_cases hv : v = -1
  · rw [if_pos hv] at hp ⊢
    have hrun := hf (h'.onward hw hp hbody)
    rw [hp.pc] at hrun
    refine (hrun.since hp).last fun σ' n m₂ hw₂ hp₂ => ?_
    obtain ⟨m₃, hw₃, hp₃⟩ := (h'.onward (hw.trans hw₂) hp₂ hgoto).jump hs
      ((hp₂.labels _).trans hdone.label)
    obtain ⟨m₄, hw₄, hp₄⟩ := hleave σ' _ m₃ ((hw.trans hw₂).trans hw₃) (hp₂.trans hp₃)
    exact ⟨2, m₄, hw₃.trans hw₄, hp₄⟩
  · rw [if_neg hv] at hp ⊢
    obtain ⟨m₂, hw₂, hp₂⟩ := (h'.onward hw hp helse).skip_label hs
    rw [hp.pc] at hp₂
    have hp₂ := hp.trans hp₂
    have hrun := ho (h'.onward (hw.trans hw₂) hp₂ hother)
    rw [hp₂.pc] at hrun
    refine ((hrun.since hp₂).last fun σ' n m₃ hw₃ hp₃ => ?_).of_walk hw₂ |>.of_le (by omega)
    obtain ⟨m₄, hw₄, hp₄⟩ := hleave σ' _ m₃ ((hw.trans hw₂).trans hw₃) hp₃
    exact ⟨1, m₄, hw₄, hp₄⟩

theorem follows_while {labels : LoopLabels} {x : Store → Except Stop Word} {step : Store → Outcome}
    (hs : site.Sound)
    (hx : ∀ {σ m}, Standing site σ m sp condition →
      Attempt m condition.length (x σ) (Delivers m sp condition.length))
    (hf : ∀ {σ m}, Standing site σ m sp body →
      Follows limit m (step σ) (Passed site m sp (m.pc + body.length)) (Finished site m sp))
    (rounds : Nat) (hle : rounds ≤ limit) :
    ∀ {σ m}, Standing site σ m sp (whileCode labels condition body) →
      Follows rounds m (.iterate x step rounds σ)
        (Passed site m sp (m.pc + (whileCode labels condition body).length))
        (Finished site m sp) := by
  induction rounds with
  | zero => exact fun {σ m} _ => ⟨0, Nat.le_refl 0, m, .refl m⟩
  | succ rounds ih =>
    intro σ m h
    have h' : Standing site σ m sp ([.label labels.again] ++ (condition ++
        ([.command .not, .ifGoto labels.done] ++ (body ++ ([.goto labels.again] ++
          [.label labels.done]))))) := by
      simpa [whileCode] using h
    obtain ⟨hagain, h₀⟩ := located_append.1 h'.located
    obtain ⟨-, h₁⟩ := located_append.1 h₀
    obtain ⟨-, h₂⟩ := located_append.1 h₁
    obtain ⟨hbody, h₃⟩ := located_append.1 h₂
    obtain ⟨hgoto, hdone⟩ := located_append.1 h₃
    simp only [List.length_cons, List.length_nil, Nat.zero_add] at h₀ hbody hgoto hdone
    have hend : m.pc + (whileCode labels condition body).length =
        m.pc + 1 + condition.length + 2 + body.length + 1 + 1 := by
      simp [whileCode]
      omega
    -- The label at the beginning is a step of every round.
    obtain ⟨m₁, hw, hp⟩ := h'.skip_label hs
    have hcond := h'.onward hw hp h₀
    suffices hrounds : Follows rounds m₁ (.iterate x step (rounds + 1) σ)
        (Passed site m sp (m.pc + (whileCode labels condition body).length))
        (Finished site m sp) from (hrounds.of_walk hw).of_le (by omega)
    have hbranch := hcond.branch hs (hx hcond.head) ((hp.labels _).trans hdone.label)
    refine Follows.withValue hbranch fun v m₂ hw₂ hp₂ => ?_
    have hp₂ := hp.trans hp₂
    have hw₂ := hw.trans hw₂
    rw [hp.pc] at hp₂
    by_cases hv : v = -1
    · rw [if_pos hv] at hp₂ ⊢
      have hrun := hf (h'.onward hw₂ hp₂ hbody)
      rw [hp₂.pc] at hrun
      refine Follows.andThen ((hrun.since hp₂).of_le (by omega)) fun σ' n m₃ hw₃ hp₃ => ?_
      obtain ⟨m₄, hw₄, hp₄⟩ := (h'.onward (hw₂.trans hw₃) hp₃ hgoto).jump hs
        ((hp₃.labels _).trans hagain.label)
      have hp₄ := hp₃.trans hp₄
      have hagain := ih (by omega) (h.onward ((hw₂.trans hw₃).trans hw₄) hp₄ h.located)
      rw [hp₄.pc] at hagain
      exact ((hagain.since hp₄).of_walk hw₄).of_le (by omega)
    · rw [if_neg hv] at hp₂ ⊢
      obtain ⟨m₃, hw₃, hp₃⟩ := (h'.onward hw₂ hp₂ hdone).skip_label hs
      rw [hp₂.pc, ← hend] at hp₃
      exact ⟨1, m₃, hw₃, hp₂.trans hp₃⟩

end Structured

/-! ## Following statements -/

/-- The names are declared, none of them is `this`, and the numbers are those of a word. -/
structure Fits (b : Bindings) (names : List String) (kinds : List Kind) : Prop where
  declares : ∀ name ∈ names, b.Declares name
  names : ∀ name ∈ names, name ≠ Keyword.thisKeyword.text
  integers : ∀ n, Kind.integer n ∈ kinds → n ≤ 32767

theorem Fits.mono {b : Bindings} {names names' : List String} {kinds kinds' : List Kind}
    (h : Fits b names kinds) (hn : ∀ name ∈ names', name ∈ names)
    (hk : ∀ kind ∈ kinds', kind ∈ kinds) : Fits b names' kinds' where
  declares name hname := h.declares name (hn name hname)
  names name hname := h.names name (hn name hname)
  integers n hint := h.integers n (hk _ hint)

namespace Standing

variable {e : Expression} {code rest : List Instruction} {names : List String}

theorem ready (hs : site.Sound) (h : Standing site σ m sp code)
    (hd : ∀ name ∈ names, site.bindings.Declares name) (this : Bool) :
    Ready site.bindings (σ.view site.bindings) m sp code names this where
  height := h.height
  placed := h.located.placed
  shows := h.agrees.shows hs h.height.high hd this
  room := h.room _

theorem evaluate (hs : site.Sound) (h : Standing site σ m sp (e.code site.bindings)) (hp : e.Plain)
    (hf : Fits site.bindings e.mentions e.tokens) :
    Attempt m (e.code site.bindings).length (e.value (σ.view site.bindings))
      (Delivers m sp (e.code site.bindings).length) :=
  e.attempt hp hf.integers (h.ready hs hf.declares e.usesThis)

end Standing

section Assignments

variable {name : String} {index value : Expression} {i w : Nat}

/-- The value is computed, then assigned. -/
theorem attempt_assign (hs : site.Sound)
    (h : Standing site σ m sp (value.code site.bindings ++ site.bindings.write name))
    (hp : value.Plain) (hf : Fits site.bindings (name :: value.mentions) value.tokens) :
    Attempt m ((value.code site.bindings).length + (site.bindings.write name).length)
      (do σ.write site.bindings name (← value.value (σ.view site.bindings)))
      (Passed site m sp (m.pc + (value.code site.bindings ++ site.bindings.write name).length)) := by
  have hvalue := h.head.evaluate hs hp (hf.mono (by simp +contextual) (by simp))
  refine hvalue.bind fun v m₁ hw hd => ?_
  have hwrite := (located_append.1 h.located).2.placed
  rw [← hd.pc, ← hd.keeps.program] at hwrite
  have hrun := attempt_write (h.agrees.onward hs hd.keeps) hs hd.height
    (hf.declares name (by simp)) (hf.names name (by simp)) hwrite
  rw [hd.top, hd.pc, Nat.add_assoc, ← List.length_append] at hrun
  refine hrun.imp fun σ' m' _ hp => ?_
  exact ⟨by rw [hp.same, hd.keeps.control], hp.pc, hp.height, hp.agrees⟩

/-- The address is computed, then the value, then the element is stored. -/
theorem attempt_assignElement (hs : site.Sound)
    (h : Standing site σ m sp (Statement.code site.bindings i w (.assignElement name index value)))
    (hi : index.Plain) (hv : value.Plain)
    (hf : Fits site.bindings (name :: index.mentions ++ value.mentions)
      (index.tokens ++ value.tokens)) :
    Attempt m ((site.bindings.read name).length + ((index.code site.bindings).length + 1) +
        ((value.code site.bindings).length + 4))
      (do
        let base ← σ.read site.bindings name
        let offset ← index.value (σ.view site.bindings)
        let v ← value.value (σ.view site.bindings)
        σ.store (base + offset).toInt v)
      (Passed site m sp
        (m.pc + (Statement.code site.bindings i w (.assignElement name index value)).length)) := by
  have hcode : Ready site.bindings (σ.view site.bindings) m sp (site.bindings.read name ++
      (index.code site.bindings ++ ([Operator.add.instruction] ++ (value.code site.bindings ++
        Compiler.storeElement)))) (name :: (index.mentions ++ value.mentions)) .true := by
    simpa [Operator.instruction, Statement.code] using h.ready hs hf.declares .true
  have haddress := hcode.attempt_address fun h₁ => index.attempt hi
    (fun n hn => hf.integers n (by simp [hn])) (h₁.mono (by simp +contextual) (fun _ => rfl))
  rw [show (do
      let base ← σ.read site.bindings name
      let offset ← index.value (σ.view site.bindings)
      let v ← value.value (σ.view site.bindings)
      σ.store (base + offset).toInt v) =
    (do return (← (σ.view site.bindings).named name) + (← index.value (σ.view site.bindings))) >>=
      fun (address : Word) => value.value (σ.view site.bindings) >>= fun v => σ.store address.toInt v
    by simp [Store.view]]
  refine haddress.bind fun address m₁ hw hd => ?_
  have hcode' : Ready site.bindings (σ.view site.bindings) m sp ((site.bindings.read name ++
      (index.code site.bindings ++ [Operator.add.instruction])) ++ (value.code site.bindings ++
        Compiler.storeElement)) (name :: (index.mentions ++ value.mentions)) .true := by
    simpa using hcode
  have h₁ : Ready site.bindings (σ.view site.bindings) m₁ (sp + 1) (value.code site.bindings ++
      Compiler.storeElement) (name :: (index.mentions ++ value.mentions)) .true :=
    hcode'.tail (by simpa using hw) (by simpa using hd) (fun _ h => h) id
  have hvalue := value.attempt hv (fun n hn => hf.integers n (by simp [hn]))
    (h₁.head (by simp +contextual) (fun _ => rfl))
  refine hvalue.bind fun v m₂ hw₂ hd₂ => ?_
  have h₂ := h₁.tail hw₂ hd₂ (fun _ h => h) id
  have hkeeps := hd.keeps.trans hd₂.keeps (Nat.le_succ sp)
  have hlow := h.height.low
  have hstore := attempt_storeElement (h.agrees.onward hs hkeeps) hs h₂.height h₂.placed
  rw [hd₂.top, hd₂.keeps.cells sp (by omega) (by omega) (.inl (by omega)), hd.top] at hstore
  refine hstore.imp fun σ' m' _ hp => ?_
  refine ⟨by rw [hp.same, hkeeps.control], ?_, hp.height, hp.agrees⟩
  rw [hp.pc, hd₂.pc, hd.pc]
  simp [Statement.code, Compiler.storeElement]
  omega

end Assignments

end Machine

namespace Syntax

variable {site : Site} {sp limit : Nat}

mutual

/-- The machine follows the run of a statement. -/
theorem Statement.follows (hs : site.Sound) : ∀ (st : Statement) {i w : Nat} {σ : Store}
    {m : Machine}, st.Plain → Fits site.bindings st.mentions st.tokens →
    Standing site σ m sp (st.code site.bindings i w) →
    Follows limit m (st.run site.bindings limit σ)
      (Passed site m sp (m.pc + (st.code site.bindings i w).length)) (Finished site m sp)
  | .assign name value, i, w, σ, m, hp, hf, h =>
    .withValue (attempt_assign hs h hp (hf.mono
      (by simp +contextual [Statement.mentions]) (by simp +contextual [Statement.tokens])))
      fun σ' m' _ hpass => ⟨0, m', .refl m', hpass⟩
  | .assignElement array index value, i, w, σ, m, hp, hf, h =>
    .withValue (attempt_assignElement hs h hp.1 hp.2 (hf.mono
      (by simp +contextual [Statement.mentions]) (by grind [Statement.tokens])))
      fun σ' m' _ hpass => ⟨0, m', .refl m', hpass⟩
  | .conditional condition body, i, w, σ, m, hp, hf, h => by
    have hx := h.ifCondition.evaluate hs hp.1 (hf.mono
      (by simp +contextual [Statement.mentions]) (by simp +contextual [Statement.tokens]))
    exact follows_if hs h hx (body.follows hs hp.2 (hf.mono
      (by simp +contextual [Statement.mentions]) (by simp +contextual [Statement.tokens])))
      fun {m'} hother => ⟨0, m', .refl m', hother.passed hs m'.pc⟩
  | .alternative condition body otherwise, i, w, σ, m, hp, hf, h => by
    have hx := h.ifCondition.evaluate hs hp.1 (hf.mono
      (by simp +contextual [Statement.mentions]) (by simp +contextual [Statement.tokens]))
    exact follows_if hs h hx
      (body.follows hs hp.2.1 (hf.mono
        (by simp +contextual [Statement.mentions]) (by simp +contextual [Statement.tokens])))
      (otherwise.follows hs hp.2.2 (hf.mono
        (by simp +contextual [Statement.mentions]) (by simp +contextual [Statement.tokens])))
  | .loop condition body, i, w, σ, m, hp, hf, h =>
    follows_while hs
      (fun hcond => hcond.evaluate hs hp.1 (hf.mono
        (by simp +contextual [Statement.mentions]) (by simp +contextual [Statement.tokens])))
      (body.follows hs hp.2 (hf.mono
        (by simp +contextual [Statement.mentions]) (by simp +contextual [Statement.tokens])))
      limit (Nat.le_refl limit) h
  | .giveBack none, i, w, σ, m, hp, hf, h =>
    ⟨0, m, .refl m, h.located.1, rfl, h.agrees, h.height, by simp⟩
  | .giveBack (some value), i, w, σ, m, hp, hf, h => by
    have hx := h.head.evaluate hs hp (hf.mono
      (by simp +contextual [Statement.mentions]) (by simp +contextual [Statement.tokens]))
    refine .withValue hx fun v m' hw hd => ⟨0, m', .refl m', ?_, by rw [hd.keeps.control],
      h.agrees.onward hs hd.keeps, hd.height, by simpa using hd.top⟩
    have hret := (located_append.1 h.located).2.1
    rwa [← hd.keeps.program, ← hd.pc] at hret

theorem Block.follows (hs : site.Sound) : ∀ (body : Block) {i w : Nat} {σ : Store}
    {m : Machine}, body.Plain → Fits site.bindings body.mentions body.tokens →
    Standing site σ m sp (body.code site.bindings i w) →
    Follows limit m (body.run site.bindings limit σ)
      (Passed site m sp (m.pc + (body.code site.bindings i w).length)) (Finished site m sp)
  | .nil, i, w, σ, m, hp, hf, h => ⟨0, m, .refl m, h.passed hs m.pc⟩
  | .cons first rest, i, w, σ, m, hp, hf, h => by
    have hfirst := first.follows hs hp.1 (hf.mono
      (by simp +contextual [Block.mentions]) (by simp +contextual [Block.tokens])) h.head
    refine hfirst.andThen fun σ' n m' hw hpass => ?_
    have hrest := rest.follows hs hp.2 (hf.mono
      (by simp +contextual [Block.mentions]) (by simp +contextual [Block.tokens]))
      (h.onward hw hpass (located_append.1 h.located).2)
    rw [hpass.pc, Nat.add_assoc, ← List.length_append] at hrest
    exact hrest.since hpass

end

end Syntax

end Jack

import Jack.Proofs.ClassCode

/-!
# Counting statements by their keywords

An `if` statement has one keyword `if` and a `while` statement one keyword `while`, and they stand
nowhere else. So the statements of a class can be counted in its text (`ClassDeclaration.controls`),
and the labels in its code are those of so many statements (`ClassDeclaration.labelled`).
-/

namespace Jack.Syntax

open Compiler Machine
open Token (Kind)

/-! ## Phrases without such keywords -/

/-- Neither keyword is among the tokens. -/
def NoControl (kinds : List Kind) : Prop :=
  ∀ k ∈ kinds, k ≠ .keyword .ifKeyword ∧ k ≠ .keyword .whileKeyword

variable {kinds kinds' : List Kind}

@[simp] theorem noControl_nil : NoControl [] := by simp [NoControl]

@[simp] theorem noControl_cons {k : Kind} : NoControl (k :: kinds) ↔
    (k ≠ .keyword .ifKeyword ∧ k ≠ .keyword .whileKeyword) ∧ NoControl kinds := List.forall_mem_cons

@[simp] theorem noControl_append :
    NoControl (kinds ++ kinds') ↔ NoControl kinds ∧ NoControl kinds' := List.forall_mem_append

theorem NoControl.countP_if (h : NoControl kinds) : kinds.countP (· = .keyword .ifKeyword) = 0 :=
  List.countP_eq_zero.2 fun k hk => by simpa using (h k hk).1

theorem NoControl.countP_while (h : NoControl kinds) :
    kinds.countP (· = .keyword .whileKeyword) = 0 :=
  List.countP_eq_zero.2 fun k hk => by simpa using (h k hk).2

theorem noControl_flatMap {α : Type} {f : α → List Kind} (h : ∀ a, NoControl (f a)) (as : List α) :
    NoControl (as.flatMap f) := by
  intro k hk
  obtain ⟨a, -, hk⟩ := List.mem_flatMap.1 hk
  exact h a k hk

mutual

theorem Term.noControl : ∀ t : Term, NoControl t.tokens
  | .integer _ | .string _ | .true | .false | .null | .this | .variable _ => by simp [Term.tokens]
  | .group e => by simp [Term.tokens, e.noControl]
  | .unary op t => by cases op <;> simp [Term.tokens, UnaryOperator.token, t.noControl]
  | .element _ index => by simp [Term.tokens, index.noControl]
  | .call c => c.noControl

theorem Expression.noControl : ∀ e : Expression, NoControl e.tokens
  | .term t => t.noControl
  | .operation left _ right => by simp [Expression.tokens, left.noControl, right.noControl]

theorem Call.noControl : ∀ c : Call, NoControl c.tokens
  | .own _ arguments => by simp [Call.tokens, arguments.noControl]
  | .qualified _ _ arguments => by simp [Call.tokens, arguments.noControl]

theorem Arguments.noControl : ∀ a : Arguments, NoControl a.tokens
  | .nil => by simp [Arguments.tokens]
  | .cons first .nil => first.noControl
  | .cons first (.cons second rest) => by
    have hrest := Arguments.noControl (.cons second rest)
    simp [Arguments.tokens, first.noControl, hrest]

end

/-! ## Statements -/

/-- The tokens have so many keywords `if` and `while`. -/
structure Controls (kinds : List Kind) (ifs whiles : Nat) : Prop where
  ifs_eq : kinds.countP (· = .keyword .ifKeyword) = ifs
  whiles_eq : kinds.countP (· = .keyword .whileKeyword) = whiles

theorem NoControl.controls (h : NoControl kinds) : Controls kinds 0 0 := ⟨h.countP_if, h.countP_while⟩

theorem Controls.append {ifs ifs' whiles whiles' : Nat} (h : Controls kinds ifs whiles)
    (h' : Controls kinds' ifs' whiles') :
    Controls (kinds ++ kinds') (ifs + ifs') (whiles + whiles') where
  ifs_eq := by rw [List.countP_append, h.ifs_eq, h'.ifs_eq]
  whiles_eq := by rw [List.countP_append, h.whiles_eq, h'.whiles_eq]

/-- What stands around the tokens does not count. -/
theorem Controls.between {before after : List Kind} {ifs whiles : Nat}
    (h : Controls kinds ifs whiles) (hb : NoControl before) (ha : NoControl after) :
    Controls (before ++ kinds ++ after) ifs whiles where
  ifs_eq := by
    rw [List.countP_append, List.countP_append, hb.countP_if, h.ifs_eq, ha.countP_if,
      Nat.zero_add, Nat.add_zero]
  whiles_eq := by
    rw [List.countP_append, List.countP_append, hb.countP_while, h.whiles_eq, ha.countP_while,
      Nat.zero_add, Nat.add_zero]

mutual

theorem Statement.controls : ∀ st : Statement, Controls st.tokens st.ifs st.whiles
  | .assign _ value => NoControl.controls (by simp [Statement.tokens, value.noControl])
  | .assignElement _ index value =>
    NoControl.controls (by simp [Statement.tokens, index.noControl, value.noControl])
  | .conditional condition body => by
    obtain ⟨hifs, hwhiles⟩ := body.controls
    have hcondition := condition.noControl
    constructor <;>
      simp [Statement.tokens, Statement.ifs, Statement.whiles, hcondition.countP_if,
        hcondition.countP_while, hifs, hwhiles]
  | .alternative condition body otherwise => by
    obtain ⟨hifs, hwhiles⟩ := body.controls
    obtain ⟨hifs', hwhiles'⟩ := otherwise.controls
    have hcondition := condition.noControl
    constructor <;>
      simp [Statement.tokens, Statement.ifs, Statement.whiles, hcondition.countP_if,
        hcondition.countP_while, hifs, hwhiles, hifs', hwhiles']
  | .loop condition body => by
    obtain ⟨hifs, hwhiles⟩ := body.controls
    have hcondition := condition.noControl
    constructor <;>
      simp [Statement.tokens, Statement.ifs, Statement.whiles, hcondition.countP_if,
        hcondition.countP_while, hifs, hwhiles]
  | .call c => NoControl.controls (by simp [Statement.tokens, c.noControl])
  | .giveBack none => NoControl.controls (by simp [Statement.tokens])
  | .giveBack (some value) => NoControl.controls (by simp [Statement.tokens, value.noControl])

theorem Block.controls : ∀ body : Block, Controls body.tokens body.ifs body.whiles
  | .nil => NoControl.controls (by simp [Block.tokens])
  | .cons first rest => first.controls.append rest.controls

end

/-! ## Classes -/

variable {k : ClassDeclaration}

/-- How many statements `if` the subroutines have. -/
def ifsOf (ds : List SubroutineDeclaration) : Nat := ds.foldr (·.body.ifs + ·) 0

/-- How many statements `while` the subroutines have. -/
def whilesOf (ds : List SubroutineDeclaration) : Nat := ds.foldr (·.body.whiles + ·) 0

theorem noControl_type (t : VariableType) : NoControl [t.token] := by
  cases t <;> simp [VariableType.token]

theorem Variables.noControl (v : Variables) : NoControl v.tokens := by
  have htype := noControl_type v.type
  have hothers : NoControl (v.others.flatMap fun name => [.symbol ',', .identifier name]) :=
    noControl_flatMap (fun _ => by simp) _
  rw [noControl_cons] at htype
  simp [Variables.tokens, htype.1, hothers]

theorem noControl_parameters (ps : List Parameter) : NoControl (parameterTokens ps) := by
  have hparameter : ∀ p : Parameter, NoControl p.tokens := fun p => by
    have htype := noControl_type p.type
    rw [noControl_cons] at htype
    simp [Parameter.tokens, htype.1]
  cases ps with
  | nil => simp [parameterTokens]
  | cons p ps =>
    have hrest : NoControl (ps.flatMap fun p => .symbol ',' :: p.tokens) :=
      noControl_flatMap (fun p => by simp [hparameter]) _
    simp [parameterTokens, hparameter, hrest]

theorem SubroutineDeclaration.controls (d : SubroutineDeclaration) :
    Controls d.tokens d.body.ifs d.body.whiles := by
  have hkind : NoControl [kindToken d.kind] := by
    cases h : d.kind <;> simp [kindToken]
  have hreturn : NoControl [(d.returnType.map (·.token)).getD (.keyword .voidKeyword)] := by
    cases d.returnType with
    | none => simp
    | some t => exact noControl_type t
  have hlocals : NoControl (d.locals.flatMap fun v => .keyword .varKeyword :: v.tokens) :=
    noControl_flatMap (fun v => by simp [v.noControl]) _
  unfold SubroutineDeclaration.tokens
  refine d.body.controls.between ?_ (by simp)
  rw [noControl_cons] at hkind hreturn
  simp [hkind.1, hreturn.1, noControl_parameters, hlocals]

theorem controls_flatMap (ds : List SubroutineDeclaration) :
    Controls (ds.flatMap SubroutineDeclaration.tokens) (ifsOf ds) (whilesOf ds) := by
  induction ds with
  | nil => exact NoControl.controls (by simp)
  | cons d ds ih =>
    rw [List.flatMap_cons]
    exact d.controls.append ih

/-- The statements of a class can be counted by their keywords. -/
theorem ClassDeclaration.controls (k : ClassDeclaration) :
    Controls k.tokens (ifsOf k.subroutines) (whilesOf k.subroutines) := by
  have hvariables : NoControl (k.declarations.flatMap ClassVariables.tokens) := by
    refine noControl_flatMap (fun v => ?_) _
    cases h : v.ownership <;>
      simp [ClassVariables.tokens, h, Ownership.keyword, v.declaration.noControl]
  unfold ClassDeclaration.tokens
  exact (controls_flatMap k.subroutines).between (by simp [hvariables]) (by simp)

theorem labelled_subroutinesCode (ds : List SubroutineDeclaration) (i w : Nat) :
    Labelled (subroutinesCode k i w ds) i (ifsOf ds) w (whilesOf ds) := by
  induction ds generalizing i w with
  | nil => exact .of_bare (by simp [Bare, subroutinesCode]) i w
  | cons d ds ih =>
    have hentry : Bare [.function (k.name ++ "." ++ d.name) (d.locals.flatMap (·.names)).length] := by
      simp [Bare, Instruction.label?, Instruction.target?]
    have hfirst := (Labelled.of_bare hentry i w).append (d.labelled k i w)
    rw [Nat.zero_add, Nat.zero_add] at hfirst
    exact hfirst.append (ih _ _)

theorem ClassDeclaration.labelled (k : ClassDeclaration) :
    Labelled k.code 0 (ifsOf k.subroutines) 0 (whilesOf k.subroutines) :=
  labelled_subroutinesCode _ 0 0

end Jack.Syntax

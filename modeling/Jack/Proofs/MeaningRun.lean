import Jack.Proofs.MeaningClass
import Jack.Proofs.Tokens

/-!
# What an agenda means

An agenda is worked off just when its goals have a meaning, and with the code of that meaning
(`emits_iff_meanings`). For `this` to be the current object no variable may have that name; in a
regular state none has, and none can get it, as it is a keyword.
-/

namespace Jack

open Token (Kind)

/-- The name `this` belongs to the object that a method is called on. -/
structure Environment.Regular (env : Environment) : Prop where
  fields : env.classScope.lookup Keyword.thisKeyword.text = none
  receiver : (env.subroutineScope.lookup Keyword.thisKeyword.text).map Symbol.push =
    if env.bindings.kind = .method then some (.push .arguments 0) else none

namespace Environment

variable {env : Environment}

theorem Regular.currentObject_eq (h : env.Regular) : env.currentObject = env.bindings.this := by
  have hr := h.receiver
  simp only [currentObject, find?, h.fields, Option.or_none, Syntax.Bindings.this]
  cases hl : env.subroutineScope.lookup Keyword.thisKeyword.text with
  | none =>
    rw [hl] at hr
    split <;> simp_all
  | some symbol =>
    rw [hl] at hr
    split <;> simp_all

theorem Regular.define {name typeName : String} {kind : Symbol.Kind} (h : env.Regular)
    (hn : name ≠ Keyword.thisKeyword.text) : (env.define name typeName kind).Regular := by
  have hk : (env.define name typeName kind).bindings.kind = env.bindings.kind := by
    cases kind <;> rfl
  constructor
  · cases kind <;> simp [Environment.define, Scope.lookup_define, hn, h.fields]
  · rw [hk, ← h.receiver]
    cases kind <;> simp [Environment.define, Scope.lookup_define, hn]

theorem Regular.beginClass (h : env.Regular) (name : String) : (env.beginClass name).Regular :=
  ⟨Scope.lookup_empty _, h.receiver⟩

theorem Regular.beginSubroutine (h : env.Regular) (name : String) (kind : Subroutine.Kind) :
    (env.beginSubroutine name kind).Regular := by
  refine ⟨h.fields, ?_⟩
  cases kind <;> simp [Environment.beginSubroutine, bindings, Scope.lookup_define, Symbol.push,
    Scope.fresh, Symbol.Kind.segment]

end Environment

namespace Compiler

open State

variable {s s' : State} {c : List Instruction}

namespace State

/-- No variable is called `this`, and no token gives that name. -/
structure Regular (s : State) : Prop where
  names : ∀ t ∈ s.input.tokens, t.kind ≠ .identifier Keyword.thisKeyword.text
  env : s.env.Regular

namespace Regular

theorem of_drop (h : s.Regular) (hd : s.drop = .ok s') : s'.Regular := by
  refine ⟨?_, env_of_drop hd ▸ h.env⟩
  simp only [drop] at hd
  split at hd <;> simp only [Except.ok.injEq, reduceCtorEq] at hd
  rename_i hi
  subst hd
  intro t ht
  refine h.names t ?_
  rw [hi]
  exact List.mem_of_mem_tail ht

theorem ne_this {t : Token} {name : String} (h : s.Regular) (ht : s.current? = some t)
    (hk : t.kind = .identifier name) : name ≠ Keyword.thisKeyword.text := by
  rintro rfl
  exact h.names t (List.mem_of_mem_head? ht) hk

theorem withEnv {env : Environment} (h : s.Regular) (he : env.Regular) :
    Regular { s with env } := ⟨h.names, he⟩

end Regular

end State

theorem regular_of_step {g : Goal} {goals : List Goal} (h : step s g = .ok (goals, s'))
    (hs : s.Regular) : s'.Regular := by
  cases turns_of_step h with
  | kept => exact hs
  | taken ht hd ha =>
    have hs₁ := hs.of_drop hd
    cases ha with
    | same => exact hs₁
    | beginClass => exact hs₁.withEnv (hs₁.env.beginClass _)
    | beginSubroutine kind => exact hs₁.withEnv (hs₁.env.beginSubroutine _ kind)
    | define _ _ hk => exact hs₁.withEnv (hs₁.env.define (hs.ne_this ht hk))
    | ifStatement | whileStatement => exact hs₁.withEnv ⟨hs₁.env.fields, hs₁.env.receiver⟩

/-- A goal means what the goals mean that a step puts in its place. -/
theorem unfolds_iff_meaning {g : Goal} (hs : s.Regular) (hg : ∀ code, g ≠ .emit code) :
    Unfolds g s c s' ↔ Meaning g s c s' := by
  have hobj := hs.env.currentObject_eq
  cases g with
  | emit code => exact absurd rfl (hg code)
  | note remark => exact (unfolds_of_eq rfl).trans meanings_nil
  | symbol ch => exact unfolds_symbol
  | classDeclaration => exact unfolds_classDeclaration
  | className => exact unfolds_className
  | classVariables => exact unfolds_classVariables
  | subroutines => exact unfolds_subroutines
  | returnType => exact unfolds_returnType
  | subroutineName kind => exact unfolds_subroutineName
  | parameters => exact unfolds_parameters
  | parameter => exact unfolds_parameter
  | parameterName typeName => exact unfolds_parameterName
  | moreParameters => exact unfolds_moreParameters
  | localVariables => exact unfolds_localVariables
  | variableType kind => exact unfolds_variableType
  | variableName kind typeName => exact unfolds_variableName
  | moreVariables kind typeName => exact unfolds_moreVariables
  | prologue kind => exact unfolds_prologue
  | statements => exact unfolds_statements
  | letTarget => exact unfolds_letTarget
  | assignment target => exact unfolds_assignment
  | elseBranch => exact unfolds_elseBranch
  | doCall => exact unfolds_doCall
  | returnValue => exact unfolds_returnValue
  | expression => exact unfolds_expression
  | operators => exact unfolds_operators
  | term => exact unfolds_term hobj
  | named name span => exact unfolds_named
  | call name span => exact unfolds_call hobj
  | qualifiedCall name span => exact unfolds_qualifiedCall
  | arguments f n => exact unfolds_arguments
  | argumentList f n => exact unfolds_argumentList
  | moreArguments f n => exact unfolds_moreArguments
  | endOfClass => exact unfolds_endOfClass

theorem emits_iff_meanings {agenda : List Goal} (hs : s.Regular) :
    Emits agenda s c s' ↔ Meanings agenda s c s' := by
  unfold Emits
  fun_induction trace agenda s generalizing c with
  | case1 s => simp [eq_comm]
  | case2 code agenda s later result h ih =>
    simp only [h] at ih
    simp only [meanings_emit, Prod.mk.injEq, ← ih hs]
    grind
  | case3 g agenda s hg goals s₁ h ih =>
    rw [ih (regular_of_step h hs), meanings_append, meanings_cons]
    have hunfold : ∀ c s', Meaning g s c s' ↔ Meanings goals s₁ c s' := fun c s' =>
      (unfolds_iff_meaning hs hg).symm.trans (unfolds_of_eq h)
    simp only [hunfold]
  | case4 g agenda s hg e h =>
    simp only [Prod.mk.injEq, reduceCtorEq, and_false, false_iff]
    rintro ⟨c₁, s₁, c₂, hm, -⟩
    obtain ⟨goals, s₂, hstep, -⟩ := (unfolds_iff_meaning hs hg).2 hm
    simp [h] at hstep

end Compiler

end Jack

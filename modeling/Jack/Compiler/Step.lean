import Jack.Compiler.Goal

/-!
# One step

`step` works on one goal. By the token at hand it chooses how to go on, takes at most that token,
and leaves the goals that come instead. It writes nothing: code is left as a goal.
`turns_of_step` says what a step can do to the state and to the goals, so that what every step keeps
is shown by a few cases; the first of it is that every step uses up potential (`potential_step_lt`).
-/

namespace Jack.Compiler

open Goal

/-- Goes on behind the keyword of a statement. -/
def stepStatement (s : State) : StatementKind → List Goal × State
  | .letStatement => ([letTarget], s)
  | .ifStatement =>
    let (labels, env) := s.env.takeBranchLabels
    (ifStatement labels, { s with env })
  | .whileStatement =>
    let (labels, env) := s.env.takeLoopLabels
    (whileStatement labels, { s with env })
  | .doStatement => ([doCall, emit [.pop .temp 0], symbol ';'], s)
  | .returnStatement => ([returnValue, emit [.command .ret], symbol ';'], s)

/-- Goes on behind the first token of a term. -/
def stepTerm (s : State) (t : Token) : Except Error (List Goal × State) :=
  match t.kind with
  | .integer value => .ok ([emit [.push .constant value]], s)
  | .string content => .ok ([emit (stringCode content.toList)], s)
  | .keyword .trueKeyword => .ok ([emit trueCode], s)
  | .keyword .falseKeyword => .ok ([emit zeroCode], s)
  | .keyword .nullKeyword => .ok ([emit zeroCode], s)
  | .keyword .thisKeyword => .ok ([emit [s.env.currentObject]], s)
  | .identifier name => .ok ([named name t.span], s)
  | .symbol c =>
    if c = '(' then .ok ([expression, symbol ')'], s)
    else if c = '-' then .ok ([term, emit [.command .neg]], s)
    else if c = '~' then .ok ([term, emit [.command .not]], s)
    else .error (.unexpectedToken "a term" t.lexeme t.span)
  | .keyword _ => .error (.unexpectedToken "a term" t.lexeme t.span)

/-- Goes on behind the subroutine name of a call `name.subroutine`. -/
def stepQualified (s : State) (name subroutine : String) (span : Span) :
    Except Error (List Goal) :=
  match s.env.find? name with
  | some object =>
    if isPrimitiveType object.typeName then
      .error (.invalidCallTarget name object.typeName subroutine span)
    else .ok [emit [object.push], arguments (object.typeName ++ "." ++ subroutine) 1]
  | none => .ok [arguments (name ++ "." ++ subroutine) 0]

def step (s : State) : Goal → Except Error (List Goal × State)
  | emit _ => .ok ([], s)
  | note _ => .ok ([], s)
  | symbol c => do
    let s ← s.requireSymbol c
    return ([], s)
  | classDeclaration => do
    let s ← s.requireKeyword .classKeyword
    return ([className], s)
  | className => do
    let (name, _, s) ← s.requireName "a class name"
    return ([note (.beginClass name), symbol '{', classVariables, subroutines, symbol '}',
      endOfClass], { s with env := s.env.beginClass name })
  | classVariables => do
    match ← s.accept? classVariableKind? with
    | none => return ([], s)
    | some (kind, s) => return ([variableType kind, symbol ';', classVariables], s)
  | subroutines => do
    match ← s.accept? subroutineKind? with
    | none => return ([], s)
    | some (kind, s) =>
      return ([returnType, subroutineName kind, symbol '(', parameters, symbol ')', symbol '{',
        localVariables, prologue kind, statements, symbol '}', subroutines], s)
  | returnType => do
    match ← s.accept? (isExactly (.keyword .voidKeyword)) with
    | some (_, s) => return ([], s)
    | none =>
      let (_, s) ← s.requireType
      return ([], s)
  | subroutineName kind => do
    let (name, _, s) ← s.requireName "a subroutine name"
    return ([note (.beginSubroutine kind (s.env.qualify name))],
      { s with env := s.env.beginSubroutine name kind })
  | parameters => return (if s.at? (.symbol ')') then [] else [parameter], s)
  | parameter => do
    let (typeName, s) ← s.requireType
    return ([parameterName typeName], s)
  | parameterName typeName => do
    let (name, span, s) ← s.requireName "a parameter name"
    return ([moreParameters], ← s.declare name typeName .argument span)
  | moreParameters => do
    match ← s.accept? (isExactly (.symbol ',')) with
    | none => return ([], s)
    | some (_, s) => return ([parameter], s)
  | localVariables => do
    match ← s.accept? (isExactly (.keyword .varKeyword)) with
    | none => return ([], s)
    | some (_, s) => return ([variableType .localVar, symbol ';', localVariables], s)
  | variableType kind => do
    let (typeName, s) ← s.requireType
    return ([variableName kind typeName], s)
  | variableName kind typeName => do
    let (name, span, s) ← s.requireName "a variable name"
    return ([moreVariables kind typeName], ← s.declare name typeName kind span)
  | moreVariables kind typeName => do
    match ← s.accept? (isExactly (.symbol ',')) with
    | none => return ([], s)
    | some (_, s) => return ([variableName kind typeName], s)
  | prologue kind => return ([emit (prologueCode s.env kind)], s)
  | statements => do
    match ← s.accept? statementKind? with
    | none => return ([], s)
    | some (kind, s) =>
      let (goals, s) := stepStatement s kind
      return (goals ++ [statements], s)
  | letTarget => do
    let (name, span, s) ← s.requireName "a variable name"
    return ([assignment (← s.meaning name span)], s)
  | assignment target =>
    if s.at? (.symbol '[') then
      return (index target ++ [symbol '=', expression, emit storeElement, symbol ';'], s)
    else return ([symbol '=', expression, emit [target.pop], symbol ';'], s)
  | elseBranch => do
    match ← s.accept? (isExactly (.keyword .elseKeyword)) with
    | none => return ([], s)
    | some (_, s) => return (block, s)
  | doCall => do
    let (name, span, s) ← s.requireName "a subroutine call"
    return ([call name span], s)
  | returnValue => return (if s.at? (.symbol ';') then [] else [expression], s)
  | expression => return ([term, operators], s)
  | operators => do
    match ← s.accept? operator? with
    | none => return ([], s)
    | some (op, s) => return ([term, emit [op.instruction], operators], s)
  | term =>
    match s.current? with
    | none => .error (.unexpectedEnd "a term")
    | some t => do stepTerm (← s.drop) t
  | named name span =>
    if s.at? (.symbol '[') then do
      let array ← s.meaning name span
      return (index array ++ [emit loadElement], s)
    else if s.at? (.symbol '(') || s.at? (.symbol '.') then return ([call name span], s)
    else do
      let value ← s.meaning name span
      return ([emit [value.push]], s)
  | call name span => do
    if s.at? (.symbol '(') then
      return ([emit [s.env.currentObject], arguments (s.env.qualify name) 1], s)
    else
      let (_, _, s) ← s.require "`(` or `.`" (isExactly (.symbol '.'))
      return ([qualifiedCall name span], s)
  | qualifiedCall name span => do
    let (subroutine, _, s) ← s.requireName "a subroutine name"
    return (← stepQualified s name subroutine span, s)
  | arguments function count => do
    let s ← s.requireSymbol '('
    return ([argumentList function count], s)
  | argumentList function count =>
    if s.at? (.symbol ')') then return (closeCall function count, s)
    else return ([expression, moreArguments function (count + 1)], s)
  | moreArguments function count => do
    match ← s.accept? (isExactly (.symbol ',')) with
    | none => return (closeCall function count, s)
    | some (_, s) => return ([expression, moreArguments function (count + 1)], s)
  | endOfClass =>
    match s.current? with
    | none => .ok ([], s)
    | some t => .error (.trailingInput s.env.className t.lexeme t.span)

/-! ## What a step does -/

/-- The goals write no label. -/
def Unlabelled (goals : List Goal) : Prop :=
  ∀ code, emit code ∈ goals → ∀ name, .label name ∉ code

/-- What is done to the environment, once the token has been taken, by a step that leaves the goals:
scopes are opened, a name is defined, or labels are made for a statement. -/
inductive Alters (t : Token) (env : Environment) : List Goal → Environment → Prop
  | same {goals : List Goal} (hl : Unlabelled goals) : Alters t env goals env
  | beginClass {goals : List Goal} {name : String} (ht : t.kind = .identifier name)
    (hl : Unlabelled goals) : Alters t env goals (env.beginClass name)
  | beginSubroutine {goals : List Goal} {name : String} (kind : Subroutine.Kind)
    (ht : t.kind = .identifier name) (hl : Unlabelled goals) :
    Alters t env goals (env.beginSubroutine name kind)
  | define {goals : List Goal} {name : String} (typeName : String) (kind : Symbol.Kind)
    (ht : t.kind = .identifier name) (hl : Unlabelled goals) :
    Alters t env goals (env.define name typeName kind)
  | ifStatement : Alters t env (Goal.ifStatement env.takeBranchLabels.1 ++ [statements])
    env.takeBranchLabels.2
  | whileStatement : Alters t env (Goal.whileStatement env.takeLoopLabels.1 ++ [statements])
    env.takeLoopLabels.2

/-- What a step does: without a token it only leaves lighter goals; and if it takes one, the goals
that it leaves weigh less than that with its own. -/
inductive Turns (s : State) (g : Goal) : List Goal → State → Prop
  | kept {goals : List Goal} (hw : totalWeight goals < g.weight) (hl : Unlabelled goals) :
    Turns s g goals s
  | taken {t : Token} {goals : List Goal} {s₁ : State} {env : Environment} (ht : s.current? = some t)
    (hd : s.drop = .ok s₁) (ha : Alters t s₁.env goals env)
    (hw : totalWeight goals < g.weight + tokenWeight) : Turns s g goals { s₁ with env }

section Turns

variable {s s₁ s' : State} {g : Goal} {t : Token} {goals : List Goal}

theorem Turns.passed (ht : s.current? = some t) (hd : s.drop = .ok s₁)
    (hw : totalWeight goals < g.weight + tokenWeight) (hl : Unlabelled goals) :
    Turns s g goals s₁ :=
  .taken ht hd (.same hl) hw

theorem taken_of_requireSymbol {c : Char} (h : s.requireSymbol c = .ok s') :
    ∃ t, s.current? = some t ∧ s.drop = .ok s' := by
  simp only [State.requireSymbol, bind_eq_ok, Prod.exists, State.require_eq_ok, pure, Except.pure,
    Except.ok.injEq] at h
  obtain ⟨_, _, _, ⟨t, ht, -, -, hd⟩, rfl⟩ := h
  exact ⟨t, ht, hd⟩

theorem taken_of_requireKeyword {k : Keyword} (h : s.requireKeyword k = .ok s') :
    ∃ t, s.current? = some t ∧ s.drop = .ok s' := by
  simp only [State.requireKeyword, bind_eq_ok, Prod.exists, State.require_eq_ok, pure, Except.pure,
    Except.ok.injEq] at h
  obtain ⟨_, _, _, ⟨t, ht, -, -, hd⟩, rfl⟩ := h
  exact ⟨t, ht, hd⟩

theorem taken_of_requireType {typeName : String} (h : s.requireType = .ok (typeName, s')) :
    ∃ t, s.current? = some t ∧ s.drop = .ok s' := by
  simp only [State.requireType, bind_eq_ok, Prod.exists, State.require_eq_ok, pure, Except.pure,
    Except.ok.injEq, Prod.mk.injEq] at h
  obtain ⟨_, _, _, ⟨t, ht, -, -, hd⟩, -, rfl⟩ := h
  exact ⟨t, ht, hd⟩

theorem taken_of_requireName {expected name : String} {span : Span}
    (h : s.requireName expected = .ok (name, span, s')) :
    ∃ t, s.current? = some t ∧ t.kind = .identifier name ∧ s.drop = .ok s' := by
  obtain ⟨t, ht, hk, -, hd⟩ := State.require_eq_ok.1 h
  exact ⟨t, ht, identifier?_eq_some.1 hk, hd⟩

theorem unlabelled_currentObject (env : Environment) : Unlabelled [emit [env.currentObject]] := by
  simp only [Unlabelled, Environment.currentObject]
  split <;> simp [Symbol.push]

theorem unlabelled_stringCode (content : List Char) : Unlabelled [emit (stringCode content)] := by
  simp [Unlabelled, stringCode, appendCode, Routine.call]

theorem unlabelled_prologueCode (env : Environment) (kind : Subroutine.Kind) :
    Unlabelled [emit (prologueCode env kind)] := by
  cases kind <;> simp [Unlabelled, prologueCode, bindObject, Routine.call]

theorem stepTerm_eq_ok (h : stepTerm s t = .ok (goals, s')) :
    totalWeight goals ≤ 9 ∧ Unlabelled goals ∧ s' = s := by
  simp only [stepTerm] at h
  repeat' split at h
  all_goals simp only [Except.ok.injEq, Prod.mk.injEq, reduceCtorEq] at h
  all_goals obtain ⟨rfl, rfl⟩ := h; refine ⟨by simp [weight], ?_, rfl⟩
  case h_2 => exact unlabelled_stringCode _
  case h_6 => exact unlabelled_currentObject _
  all_goals simp [Unlabelled, trueCode, zeroCode]

theorem stepQualified_eq_ok {name subroutine : String} {span : Span}
    (h : stepQualified s name subroutine span = .ok goals) :
    totalWeight goals ≤ 2 ∧ Unlabelled goals := by
  simp only [stepQualified] at h
  repeat' split at h
  all_goals simp only [Except.ok.injEq, reduceCtorEq] at h
  all_goals subst h; exact ⟨by simp [weight], by simp [Unlabelled, Symbol.push]⟩

theorem stepStatement_weight (s : State) (kind : StatementKind) :
    totalWeight (stepStatement s kind).1 ≤ 13 ∧ (stepStatement s kind).2.input = s.input := by
  cases kind <;> exact ⟨by simp [stepStatement, ifStatement, whileStatement, condition, block,
    weight], rfl⟩

theorem turns_stepStatement (ht : s.current? = some t) (hd : s.drop = .ok s₁)
    (kind : StatementKind) :
    Turns s statements ((stepStatement s₁ kind).1 ++ [statements]) (stepStatement s₁ kind).2 := by
  have hw : totalWeight ((stepStatement s₁ kind).1 ++ [statements]) <
      statements.weight + tokenWeight := by
    have := (stepStatement_weight s₁ kind).1
    simp only [totalWeight_append, totalWeight_cons, totalWeight_nil, weight, tokenWeight]
    omega
  cases kind with
  | letStatement | doStatement | returnStatement =>
    exact .passed ht hd hw (by simp [Unlabelled, stepStatement])
  | ifStatement => exact .taken ht hd .ifStatement hw
  | whileStatement => exact .taken ht hd .whileStatement hw

/-- Every step turns its goal into others in this way. -/
theorem turns_of_step (h : step s g = .ok (goals, s')) : Turns s g goals s' := by
  cases g <;> simp only [step, bind_eq_ok, Prod.exists, pure, Except.pure, Except.ok.injEq,
    Prod.mk.injEq] at h
  case emit | note | expression =>
    obtain ⟨rfl, rfl⟩ := h
    exact .kept (by simp [weight]) (by simp [Unlabelled])
  case prologue kind =>
    obtain ⟨rfl, rfl⟩ := h
    exact .kept (by simp [weight]) (unlabelled_prologueCode _ _)
  case parameters | returnValue =>
    obtain ⟨rfl, rfl⟩ := h
    split <;> exact .kept (by simp [weight]) (by simp [Unlabelled])
  case symbol | arguments =>
    obtain ⟨s₁, hs₁, rfl, rfl⟩ := h
    obtain ⟨t, ht, hd⟩ := taken_of_requireSymbol hs₁
    exact .passed ht hd (by simp [weight, tokenWeight]) (by simp [Unlabelled])
  case classDeclaration =>
    obtain ⟨s₁, hs₁, rfl, rfl⟩ := h
    obtain ⟨t, ht, hd⟩ := taken_of_requireKeyword hs₁
    exact .passed ht hd (by simp [weight, tokenWeight]) (by simp [Unlabelled])
  case parameter | variableType =>
    obtain ⟨_, s₁, hs₁, rfl, rfl⟩ := h
    obtain ⟨t, ht, hd⟩ := taken_of_requireType hs₁
    exact .passed ht hd (by simp [weight, tokenWeight]) (by simp [Unlabelled])
  case className =>
    obtain ⟨name, _, s₁, hs₁, rfl, rfl⟩ := h
    obtain ⟨t, ht, hk, hd⟩ := taken_of_requireName hs₁
    exact .taken ht hd (.beginClass hk (by simp [Unlabelled])) (by simp [weight, tokenWeight])
  case subroutineName kind =>
    obtain ⟨name, _, s₁, hs₁, rfl, rfl⟩ := h
    obtain ⟨t, ht, hk, hd⟩ := taken_of_requireName hs₁
    exact .taken ht hd (.beginSubroutine kind hk (by simp [Unlabelled]))
      (by simp [weight, tokenWeight])
  case parameterName | variableName =>
    obtain ⟨name, _, s₁, hs₁, s₂, hs₂, rfl, rfl⟩ := h
    obtain ⟨t, ht, hk, hd⟩ := taken_of_requireName hs₁
    obtain rfl := State.eq_of_declare hs₂
    exact .taken ht hd (.define _ _ hk (by simp [Unlabelled])) (by simp [weight, tokenWeight])
  case doCall =>
    obtain ⟨_, _, s₁, hs₁, rfl, rfl⟩ := h
    obtain ⟨t, ht, -, hd⟩ := taken_of_requireName hs₁
    exact .passed ht hd (by simp [weight, tokenWeight]) (by simp [Unlabelled])
  case letTarget =>
    obtain ⟨_, _, s₁, hs₁, _, _, rfl, rfl⟩ := h
    obtain ⟨t, ht, -, hd⟩ := taken_of_requireName hs₁
    exact .passed ht hd (by simp [weight, tokenWeight]) (by simp [Unlabelled])
  case qualifiedCall =>
    obtain ⟨_, _, s₁, hs₁, _, hq, rfl, rfl⟩ := h
    obtain ⟨t, ht, -, hd⟩ := taken_of_requireName hs₁
    obtain ⟨hw, hl⟩ := stepQualified_eq_ok hq
    exact .passed ht hd (by simp only [weight, tokenWeight]; omega) hl
  case classVariables | subroutines | moreParameters | localVariables | moreVariables | elseBranch
      | moreArguments =>
    obtain ⟨_ | ⟨_, s₁⟩, hs₁, h⟩ := h <;> simp only [Except.ok.injEq, Prod.mk.injEq] at h <;>
      obtain ⟨rfl, rfl⟩ := h
    · exact .kept (by simp [weight, closeCall]) (by simp [Unlabelled, closeCall])
    · obtain ⟨t, ht, -, hd⟩ := State.accept?_eq_ok.1 hs₁
      exact .passed ht hd (by simp [weight, tokenWeight, block]) (by simp [Unlabelled, block])
  case operators =>
    obtain ⟨_ | ⟨op, s₁⟩, hs₁, h⟩ := h <;> simp only [Except.ok.injEq, Prod.mk.injEq] at h <;>
      obtain ⟨rfl, rfl⟩ := h
    · exact .kept (by simp [weight]) (by simp [Unlabelled])
    · obtain ⟨t, ht, -, hd⟩ := State.accept?_eq_ok.1 hs₁
      refine .passed ht hd (by simp [weight, tokenWeight]) ?_
      cases op <;> simp [Unlabelled, Operator.instruction, Routine.call]
  case statements =>
    obtain ⟨_ | ⟨kind, s₁⟩, hs₁, h⟩ := h <;> simp only [Except.ok.injEq, Prod.mk.injEq] at h <;>
      obtain ⟨rfl, rfl⟩ := h
    · exact .kept (by simp [weight]) (by simp [Unlabelled])
    · obtain ⟨t, ht, -, hd⟩ := State.accept?_eq_ok.1 hs₁
      exact turns_stepStatement ht hd kind
  case returnType =>
    obtain ⟨_ | ⟨_, s₁⟩, hs₁, h⟩ := h
    · simp only [bind_eq_ok, Prod.exists, Except.ok.injEq, Prod.mk.injEq] at h
      obtain ⟨_, s₁, hs₁, rfl, rfl⟩ := h
      obtain ⟨t, ht, hd⟩ := taken_of_requireType hs₁
      exact .passed ht hd (by simp [weight, tokenWeight]) (by simp [Unlabelled])
    · simp only [Except.ok.injEq, Prod.mk.injEq] at h
      obtain ⟨rfl, rfl⟩ := h
      obtain ⟨t, ht, -, hd⟩ := State.accept?_eq_ok.1 hs₁
      exact .passed ht hd (by simp [weight, tokenWeight]) (by simp [Unlabelled])
  case assignment | argumentList =>
    split at h <;> simp only [Except.ok.injEq, Prod.mk.injEq] at h <;> obtain ⟨rfl, rfl⟩ := h <;>
      exact .kept (by simp [weight, index, closeCall])
        (by simp [Unlabelled, index, closeCall, Symbol.push, Symbol.pop, storeElement])
  case term =>
    split at h
    · simp at h
    · rename_i t ht
      obtain ⟨s₁, hd, h⟩ := bind_eq_ok.1 h
      obtain ⟨hw, hl, rfl⟩ := stepTerm_eq_ok h
      exact .passed ht hd (by simp only [weight, tokenWeight]; omega) hl
  case named =>
    repeat' split at h
    all_goals simp only [bind_eq_ok, Except.ok.injEq, Prod.mk.injEq] at h
    · obtain ⟨_, _, rfl, rfl⟩ := h
      exact .kept (by simp [weight, index]) (by simp [Unlabelled, index, Symbol.push, loadElement])
    · obtain ⟨rfl, rfl⟩ := h
      exact .kept (by simp [weight]) (by simp [Unlabelled])
    · obtain ⟨_, _, rfl, rfl⟩ := h
      exact .kept (by simp [weight]) (by simp [Unlabelled, Symbol.push])
  case call =>
    split at h <;> simp only [bind_eq_ok, Prod.exists, Except.ok.injEq, Prod.mk.injEq] at h
    · obtain ⟨rfl, rfl⟩ := h
      refine .kept (by simp [weight]) fun code hmem => ?_
      exact unlabelled_currentObject s.env code (by simpa using hmem)
    · obtain ⟨_, _, s₁, hs₁, rfl, rfl⟩ := h
      obtain ⟨t, ht, -, -, hd⟩ := State.require_eq_ok.1 hs₁
      exact .passed ht hd (by simp [weight, tokenWeight]) (by simp [Unlabelled])
  case endOfClass =>
    split at h <;> simp only [Except.ok.injEq, Prod.mk.injEq, reduceCtorEq] at h
    obtain ⟨rfl, rfl⟩ := h
    exact .kept (by simp [weight]) (by simp [Unlabelled])

/-- A step uses up potential. -/
theorem potential_step_lt (h : step s g = .ok (goals, s')) : potential goals s' < potential [g] s := by
  simp only [potential, totalWeight_cons, totalWeight_nil]
  cases turns_of_step h with
  | kept hw => omega
  | taken ht hd _ hw =>
    rw [State.length_of_drop ht hd, Nat.mul_succ]
    simp only
    omega

end Turns

end Jack.Compiler

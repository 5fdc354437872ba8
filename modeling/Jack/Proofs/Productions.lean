import Jack.Proofs.MeaningClass

/-!
# Productions of the grammar

Without names and code, a goal stands for phrases of the grammar (`Phrase`), and a list of goals for
phrases one after the other (`Phrases`). `Expands` relates a goal to goals that may come instead of
it when some token is next. They build phrases of the goal; and if it is followed only by what may
follow it (`Follow`), they cut each of its phrases that goes on with this token into theirs
(`Parses`). The modules that follow show this of the goals that a step leaves. For most goals it is
enough to say that the goal is another one behind its token (`Expands.onward`), or that it reads any
number of items (`Repeats`).
-/

namespace Jack.Compiler

open Syntax State
open Token (Kind)

/-! ## Phrases -/

/-- The phrases of a goal, whatever is declared. -/
def Phrase : Goal → List Kind → Prop
  | .emit _, p | .note _, p | .prologue _, p | .endOfClass, p => p = []
  | .symbol c, p => p = [.symbol c]
  | .expression, p => ∃ e : Expression, p = e.tokens
  | .operators, p => ∃ chain : Chain, p = chain.tokens
  | .term, p => ∃ t : Term, p = t.tokens
  | .named name _, p => ∃ t : Term, t.tokens = .identifier name :: p
  | .call name _, p => ∃ cl : Call, cl.tokens = .identifier name :: p
  | .qualifiedCall name _, p => ∃ cl : Call, cl.tokens = .identifier name :: .symbol '.' :: p
  | .arguments .., p => ∃ args : Arguments, p = .symbol '(' :: args.tokens ++ [.symbol ')']
  | .argumentList .., p => ∃ args : Arguments, p = args.tokens ++ [.symbol ')']
  | .moreArguments .., p => ∃ args : Arguments, p = args.moreTokens ++ [.symbol ')']
  | .statements, p => ∃ body : Block, p = body.tokens
  | .letTarget, p => ∃ st : Statement, st.tokens = .keyword .letKeyword :: p
  | .assignment _, p =>
    (∃ value : Expression, p = .symbol '=' :: value.tokens ++ [.symbol ';']) ∨
      ∃ index value : Expression, p = .symbol '[' :: index.tokens ++
        .symbol ']' :: .symbol '=' :: value.tokens ++ [.symbol ';']
  | .elseBranch, p => p = [] ∨ ∃ body : Block,
      p = .keyword .elseKeyword :: .symbol '{' :: body.tokens ++ [.symbol '}']
  | .doCall, p => ∃ cl : Call, p = cl.tokens
  | .returnValue, p => p = [] ∨ ∃ e : Expression, p = e.tokens
  | .classDeclaration, p => ∃ k : ClassDeclaration, p = k.tokens
  | .className, p => ∃ k : ClassDeclaration, k.tokens = .keyword .classKeyword :: p
  | .classVariables, p => ∃ vs : List ClassVariables, p = vs.flatMap ClassVariables.tokens
  | .subroutines, p =>
    ∃ ds : List SubroutineDeclaration, p = ds.flatMap SubroutineDeclaration.tokens
  | .returnType, p => ∃ r : Option VariableType, p = [(r.map (·.token)).getD (.keyword .voidKeyword)]
  | .subroutineName _, p => ∃ name, p = [.identifier name]
  | .parameters, p => ∃ ps : List Parameter, p = parameterTokens ps
  | .parameter, p => ∃ (q : Parameter) (ps : List Parameter), p = q.tokens ++ moreParameters ps
  | .parameterName _, p =>
    ∃ (name : String) (ps : List Parameter), p = .identifier name :: moreParameters ps
  | .moreParameters, p => ∃ ps : List Parameter, p = moreParameters ps
  | .localVariables, p =>
    ∃ vs : List Variables, p = vs.flatMap fun v => .keyword .varKeyword :: v.tokens
  | .variableType _, p =>
    ∃ (type : VariableType) (name : String) (names : List String),
      p = type.token :: .identifier name :: moreNames names
  | .variableName .., p =>
    ∃ (name : String) (names : List String), p = .identifier name :: moreNames names
  | .moreVariables .., p => ∃ names : List String, p = moreNames names

/-- The token may stand behind a phrase of the goal, and does not go on with it. -/
def Follow : Goal → Option Kind → Prop
  | .classDeclaration, k | .className, k | .endOfClass, k => k = none
  | .classVariables, k => k.bind classVariableKind? = none
  | .subroutines, k => k.bind subroutineKind? = none
  | .parameters, k => k = some (.symbol ')')
  | .parameter, k | .parameterName _, k | .moreParameters, k | .variableType _, k
  | .variableName .., k | .moreVariables .., k => k ≠ some (.symbol ',')
  | .localVariables, k => k ≠ some (.keyword .varKeyword)
  | .statements, k => k = some (.symbol '}')
  | .elseBranch, k => k ≠ some (.keyword .elseKeyword)
  | .returnValue, k => k = some (.symbol ';')
  | .expression, k | .operators, k => Closing k
  | .term, k | .named .., k => ¬ Extends k
  | _, _ => True

/-- Phrases of the goals, one after the other. -/
def Phrases : List Goal → List Kind → Prop
  | [], p => p = []
  | g :: goals, p => ∃ p₁ p₂, Phrase g p₁ ∧ Phrases goals p₂ ∧ p = p₁ ++ p₂

/-- The same, each with a token behind it that may stand there; `r` follows the last one. -/
def Parses : List Goal → List Kind → List Kind → Prop
  | [], p, _ => p = []
  | g :: goals, p, r =>
    ∃ p₁ p₂, Phrase g p₁ ∧ Follow g (p₂ ++ r).head? ∧ Parses goals p₂ r ∧ p = p₁ ++ p₂

variable {g : Goal} {goals more : List Goal} {p p' q r : List Kind}

@[simp] theorem phrases_nil : Phrases [] p ↔ p = [] := Iff.rfl

theorem phrases_cons :
    Phrases (g :: goals) p ↔ ∃ p₁ p₂, Phrase g p₁ ∧ Phrases goals p₂ ∧ p = p₁ ++ p₂ := Iff.rfl

@[simp] theorem phrases_singleton : Phrases [g] p ↔ Phrase g p := by
  simp [phrases_cons]

@[simp] theorem phrases_emit (code : List Instruction) :
    Phrases (.emit code :: goals) p ↔ Phrases goals p := by
  simp [phrases_cons, Phrase]

@[simp] theorem phrases_symbol (c : Char) :
    Phrases (.symbol c :: goals) p ↔ ∃ q, Phrases goals q ∧ p = .symbol c :: q := by
  simp [phrases_cons, Phrase]

theorem phrases_append :
    Phrases (goals ++ more) p ↔ ∃ p₁ p₂, Phrases goals p₁ ∧ Phrases more p₂ ∧ p = p₁ ++ p₂ := by
  induction goals generalizing p with
  | nil => simp
  | cons g goals ih =>
    simp only [List.cons_append, phrases_cons, ih]
    constructor
    · rintro ⟨p₁, _, hg, ⟨p₂, p₃, hgoals, hmore, rfl⟩, rfl⟩
      exact ⟨p₁ ++ p₂, p₃, ⟨p₁, p₂, hg, hgoals, rfl⟩, hmore, by simp⟩
    · rintro ⟨_, p₃, ⟨p₁, p₂, hg, hgoals, rfl⟩, hmore, rfl⟩
      exact ⟨p₁, p₂ ++ p₃, hg, ⟨p₂, p₃, hgoals, hmore, rfl⟩, by simp⟩

@[simp] theorem parses_nil : Parses [] p r ↔ p = [] := Iff.rfl

namespace Parses

theorem nil : Parses [] [] r := rfl

theorem cons (h : Phrase g p) (hf : Follow g (q ++ r).head?) (h' : Parses goals q r) :
    Parses (g :: goals) (p ++ q) r := ⟨p, q, h, hf, h', rfl⟩

theorem singleton (h : Phrase g p) (hf : Follow g r.head?) : Parses [g] p r :=
  ⟨p, [], h, hf, rfl, by simp⟩

theorem emit {code : List Instruction} (h : Parses goals p r) : Parses (.emit code :: goals) p r :=
  ⟨[], p, rfl, trivial, h, rfl⟩

theorem symbol {c : Char} (h : Parses goals p r) :
    Parses (.symbol c :: goals) (.symbol c :: p) r := ⟨[.symbol c], p, rfl, trivial, h, rfl⟩

theorem append (h : Parses goals p (q ++ r)) (h' : Parses more q r) :
    Parses (goals ++ more) (p ++ q) r := by
  induction goals generalizing p with
  | nil =>
    obtain rfl : p = [] := h
    exact h'
  | cons g goals ih =>
    obtain ⟨p₁, p₂, hg, hf, hgoals, rfl⟩ := h
    exact ⟨p₁, p₂ ++ q, hg, by rwa [List.append_assoc], ih hgoals, by simp⟩

end Parses

/-! ## Goals instead of a goal -/

/-- The goal is of the class as a whole. Nothing stands behind it. -/
def Goal.Whole (g : Goal) : Prop := g = .classDeclaration ∨ g = .className ∨ g = .endOfClass

/-- Only the last goal may be of the class as a whole. -/
def Tidy : List Goal → Prop
  | [] => True
  | g :: goals => (g.Whole → goals = []) ∧ Tidy goals

@[simp] theorem tidy_nil : Tidy [] := trivial

@[simp] theorem tidy_cons : Tidy (g :: goals) ↔ (g.Whole → goals = []) ∧ Tidy goals := Iff.rfl

/-- With this token next, these tokens and the goals may come instead of the goal. -/
structure Expands (g : Goal) (next : Option Kind) (taken : List Kind) (goals : List Goal) : Prop where
  build : ∀ p, Phrases goals p → Phrase g (taken ++ p)
  cut : ∀ p r, Phrase g p → Follow g r.head? → (p ++ r).head? = next →
    ∃ p', p = taken ++ p' ∧ Parses goals p' r
  whole : Tidy goals ∧ ∀ g' ∈ goals, g'.Whole → g.Whole

/-- No phrase of the goal goes on with this token. -/
def Bars (g : Goal) (next : Option Kind) : Prop :=
  ∀ p r, Phrase g p → Follow g r.head? → (p ++ r).head? ≠ next

namespace Expands

variable {k : Kind} {next : Option Kind} {taken : List Kind}

/-- A goal of which the token is taken. -/
theorem behind (hnil : Phrase g [] → ¬ Follow g (some k))
    (build : ∀ p, Phrases goals p → Phrase g (k :: p))
    (cut : ∀ p r, Phrase g (k :: p) → Follow g r.head? → Parses goals p r)
    (whole : Tidy goals ∧ ∀ g' ∈ goals, g'.Whole → g.Whole) : Expands g (some k) [k] goals where
  build := build
  whole := whole
  cut p r hp hf hn := by
    cases p with
    | nil => exact absurd (hn ▸ hf) (hnil hp)
    | cons k' p =>
      obtain rfl : k' = k := Option.some.inj hn
      exact ⟨p, rfl, cut p r hp hf⟩

/-- A goal that is another goal behind the token. -/
theorem onward {g' : Goal} (hnil : Phrase g [] → ¬ Follow g (some k))
    (hg : ∀ p, Phrase g (k :: p) ↔ Phrase g' p) (hfollow : ∀ next, Follow g next → Follow g' next)
    (whole : g'.Whole → g.Whole) : Expands g (some k) [k] [g'] :=
  .behind hnil (fun p hp => (hg p).2 (phrases_singleton.1 hp))
    (fun p r hp hf => .singleton ((hg p).1 hp) (hfollow _ hf)) (by simpa using whole)

/-- A goal whose phrases are empty unless they begin with another token. -/
theorem ending (hnil : Phrase g []) (hcons : ∀ k p, next = some k → ¬ Phrase g (k :: p)) :
    Expands g next [] [] where
  build p hp := by rwa [phrases_nil.1 hp]
  whole := by simp
  cut p r hp hf hn := by
    cases p with
    | nil => exact ⟨[], rfl, rfl⟩
    | cons k p => exact absurd hp (hcons k p hn.symm)

end Expands

section Repeats

variable {ι : Type} {first : ι → Kind} {rest : ι → List Kind} {k : Kind}

/-- The phrases of the goal are made of any number of items. -/
def Repeats (g : Goal) (first : ι → Kind) (rest : ι → List Kind) : Prop :=
  ∀ p, Phrase g p ↔ ∃ items : List ι, p = items.flatMap fun i => first i :: rest i

/-- No item begins with the token. -/
theorem Repeats.ending {next : Option Kind} (h : Repeats g first rest)
    (hn : ∀ i, next ≠ some (first i)) : Expands g next [] [] := by
  refine .ending ((h []).2 ⟨[], rfl⟩) fun k p hk hp => ?_
  obtain ⟨_ | ⟨i, items⟩, hp⟩ := (h _).1 hp
  · simp at hp
  · exact hn i (hk.trans (congrArg some (List.cons.inj hp).1))

/-- An item is taken, and more may come. -/
theorem Repeats.item (h : Repeats g first rest) (hf : ¬ Follow g (some k))
    (build : ∀ p, Phrases goals p → ∃ i q, first i = k ∧ Phrase g q ∧ p = rest i ++ q)
    (cut : ∀ i q r, first i = k → Phrase g q → Follow g r.head? → Parses goals (rest i ++ q) r)
    (whole : Tidy goals ∧ ∀ g' ∈ goals, g'.Whole → g.Whole) : Expands g (some k) [k] goals := by
  refine .behind (fun _ => hf) (fun p hp => ?_) (fun p r hp hr => ?_) whole
  · obtain ⟨i, q, rfl, hq, rfl⟩ := build p hp
    obtain ⟨items, rfl⟩ := (h q).1 hq
    exact (h _).2 ⟨i :: items, rfl⟩
  · obtain ⟨_ | ⟨i, items⟩, hp⟩ := (h _).1 hp
    · simp at hp
    · obtain ⟨hk, hp⟩ := List.cons.inj hp
      exact hp ▸ cut i _ r hk.symm ((h _).2 ⟨items, rfl⟩) hr

end Repeats

/-! ## Steps -/

/-- A step goes on as the grammar does. An error of syntax means that no phrase of the goal goes on
with the token at hand, which is the one the error names. -/
def Fits (s : State) (g : Goal) : Except Error (List Goal × State) → Prop
  | .ok (goals, s') => ∃ taken, s.Takes taken { s' with env := s.env } ∧ Expands g s.next? taken goals
  | .error e => e.category = .syntactic → Bars g s.next? ∧ e.span? = s.current?.map (·.span) ∧
      ∀ name found span, e = .trailingInput name found span → g = .endOfClass

variable {s s₁ s' : State} {e : Error} {α : Type}

theorem fits_kept (h : Expands g s.next? [] goals) (hi : s'.input = s.input) :
    Fits s g (.ok (goals, s')) := by
  refine ⟨[], ?_, h⟩
  obtain ⟨input, env⟩ := s
  simpa using hi

theorem fits_taken {k : Kind} (hk : s.Takes [k] s₁) (hi : s'.input = s₁.input)
    (h : Expands g (some k) [k] goals) : Fits s g (.ok (goals, s')) := by
  refine ⟨[k], ?_, hk.next?_eq ▸ h⟩
  have henv := hk.env_eq
  obtain ⟨input, env⟩ := s₁
  obtain ⟨input', env'⟩ := s'
  obtain rfl : input' = input := hi
  rwa [show env = s.env from henv] at hk

theorem fits_error (h : e.category ≠ .syntactic) : Fits s g (.error e) := fun hs => absurd hs h

theorem fits_bind {x : Except Error α} {f : α → Except Error (List Goal × State)}
    (herror : ∀ e, x = .error e → Fits s g (.error e)) (hok : ∀ a, x = .ok a → Fits s g (f a)) :
    Fits s g (x >>= f) := by
  cases x with
  | error e => exact herror e rfl
  | ok a => exact hok a rfl

theorem category_of_drop (h : s.drop = .error e) : e.category ≠ .syntactic := by
  simp only [drop] at h
  split at h <;> simp only [Except.error.injEq, reduceCtorEq] at h
  subst h
  rename_i e _
  cases e <;> simp [Error.category]

theorem fits_accept {cls : Kind → Option α}
    {f : Option (α × State) → Except Error (List Goal × State)}
    (hnone : s.next?.bind cls = none → Fits s g (f none))
    (hsome : ∀ k a s₁, cls k = some a → s.Takes [k] s₁ → Fits s g (f (some (a, s₁)))) :
    Fits s g (s.accept? cls >>= f) := by
  refine fits_bind (fun e he => fits_error ?_) ?_
  · simp only [accept?] at he
    split at he
    · simp at he
    · refine category_of_drop (s := s) ?_
      rcases hd : s.drop with e' | s₁ <;> rw [hd] at he
      · simpa [bind, Except.bind] using he
      · simp [bind, Except.bind, pure, Except.pure] at he
  · rintro (_ | ⟨a, s₁⟩) ha
    · exact hnone (accept?_eq_none.1 ha)
    · obtain ⟨k, hk, ht⟩ := accept?_eq_some.1 ha
      exact hsome k a s₁ hk ht

theorem fits_acceptExactly {kind : Kind}
    {f : Option (Unit × State) → Except Error (List Goal × State)}
    (hnone : s.next? ≠ some kind → Fits s g (f none))
    (hsome : ∀ s₁, s.Takes [kind] s₁ → Fits s g (f (some ((), s₁)))) :
    Fits s g (s.accept? (isExactly kind) >>= f) := by
  refine fits_accept (fun hn => hnone ?_) ?_
  · rwa [isExactly_bind_eq_none] at hn
  · intro k _ s₁ hk ht
    obtain rfl := isExactly_eq_some.1 hk
    exact hsome s₁ ht

theorem fits_require {expected : String} {cls : Kind → Option α}
    {f : α × Span × State → Except Error (List Goal × State)}
    (hnone : s.next?.bind cls = none → Bars g s.next?)
    (hsome : ∀ k a span s₁, cls k = some a → s.Takes [k] s₁ → Fits s g (f (a, span, s₁))) :
    Fits s g (s.require expected cls >>= f) := by
  refine fits_bind (fun e he => ?_) ?_
  · simp only [require] at he
    split at he
    · rename_i hc
      simp only [Except.error.injEq] at he
      subst he
      exact fun _ => ⟨hnone (by simp [next?, hc]), by simp [Error.span?, hc], by simp⟩
    · rename_i t hc
      split at he
      · rename_i hcls
        simp only [Except.error.injEq] at he
        subst he
        exact fun _ => ⟨hnone (by simp [next?, hc, hcls]), by simp [Error.span?, hc], by simp⟩
      · refine fits_error (category_of_drop (s := s) ?_)
        rcases hd : s.drop with e' | s₁ <;> rw [hd] at he
        · simpa [bind, Except.bind] using he
        · simp [bind, Except.bind, pure, Except.pure] at he
  · rintro ⟨a, span, s₁⟩ ha
    obtain ⟨t, hc, hcls, -, hd⟩ := require_eq_ok.1 ha
    exact hsome t.kind a span s₁ hcls (takes_singleton.2 ⟨t, hc, rfl, hd⟩)

theorem fits_requireExactly {expected : String} {kind : Kind}
    {f : Unit × Span × State → Except Error (List Goal × State)}
    (hnone : s.next? ≠ some kind → Bars g s.next?)
    (hsome : ∀ span s₁, s.Takes [kind] s₁ → Fits s g (f ((), span, s₁))) :
    Fits s g (s.require expected (isExactly kind) >>= f) := by
  refine fits_require (fun hn => hnone ?_) ?_
  · rwa [isExactly_bind_eq_none] at hn
  · intro k a span s₁ hk ht
    obtain rfl := isExactly_eq_some.1 hk
    exact hsome span s₁ ht

theorem fits_requireSymbol {c : Char} {f : State → Except Error (List Goal × State)}
    (hnone : s.next? ≠ some (.symbol c) → Bars g s.next?)
    (hsome : ∀ s₁, s.Takes [.symbol c] s₁ → Fits s g (f s₁)) :
    Fits s g (s.requireSymbol c >>= f) := by
  have h : s.requireSymbol c >>= f =
      s.require (quoted (String.singleton c)) (isExactly (.symbol c)) >>= fun x => f x.2.2 := by
    rw [requireSymbol]
    rcases s.require _ _ with _ | ⟨_, _, _⟩ <;> rfl
  rw [h]
  exact fits_requireExactly hnone fun _ s₁ ht => hsome s₁ ht

theorem fits_requireKeyword {k : Keyword} {f : State → Except Error (List Goal × State)}
    (hnone : s.next? ≠ some (.keyword k) → Bars g s.next?)
    (hsome : ∀ s₁, s.Takes [.keyword k] s₁ → Fits s g (f s₁)) :
    Fits s g (s.requireKeyword k >>= f) := by
  have h : s.requireKeyword k >>= f =
      s.require (quoted k.text) (isExactly (.keyword k)) >>= fun x => f x.2.2 := by
    rw [requireKeyword]
    rcases s.require _ _ with _ | ⟨_, _, _⟩ <;> rfl
  rw [h]
  exact fits_requireExactly hnone fun _ s₁ ht => hsome s₁ ht

theorem fits_requireName {expected : String}
    {f : String × Span × State → Except Error (List Goal × State)}
    (hnone : (∀ name, s.next? ≠ some (.identifier name)) → Bars g s.next?)
    (hsome : ∀ name span s₁, s.Takes [.identifier name] s₁ → Fits s g (f (name, span, s₁))) :
    Fits s g (s.requireName expected >>= f) := by
  refine fits_require (fun hn => hnone fun name h => ?_) ?_
  · simp [h, identifier?] at hn
  · intro k a span s₁ hk ht
    obtain rfl := identifier?_eq_some.1 hk
    exact hsome a span s₁ ht

theorem fits_requireType {f : String × State → Except Error (List Goal × State)}
    (hnone : (∀ type : VariableType, s.next? ≠ some type.token) → Bars g s.next?)
    (hsome : ∀ (type : VariableType) s₁, s.Takes [type.token] s₁ → Fits s g (f (type.text, s₁))) :
    Fits s g (s.requireType >>= f) := by
  have h : s.requireType >>= f = s.require "a type" typeName? >>= fun x => f (x.1, x.2.2) := by
    rw [requireType]
    rcases s.require _ _ with _ | ⟨_, _, _⟩ <;> rfl
  rw [h]
  refine fits_require (fun hn => hnone fun type h => ?_) ?_
  · rw [h, Option.bind_some, typeName?_eq_some.2 ⟨type, rfl, rfl⟩] at hn
    simp at hn
  · intro k a span s₁ hk ht
    obtain ⟨type, rfl, rfl⟩ := typeName?_eq_some.1 hk
    exact hsome type s₁ ht

/-- A goal whose phrases all begin with other tokens. -/
theorem bars_of_begins {next : Option Kind}
    (h : ∀ p, Phrase g p → ∃ k p', p = k :: p' ∧ next ≠ some k) : Bars g next := by
  intro p r hp _ hn
  obtain ⟨k, p', rfl, hk⟩ := h p hp
  exact hk hn.symm

end Jack.Compiler

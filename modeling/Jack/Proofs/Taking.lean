import Jack.Compiler.Step
import Jack.Syntax.Written

/-!
# Taking tokens

`s.Takes kinds s'` says that the tokens at hand in `s` are of these kinds and that `s'` is left when
they are dropped. Such a run of tokens can be cut anywhere (`takes_append`) and does not depend on
the environment (`takes_withEnv`). What the compiler requires or accepts is said in these terms.
-/

namespace Jack.Compiler

open Syntax
open Token (Kind)

namespace State

/-- The kind of the token at hand. -/
def next? (s : State) : Option Kind := s.current?.map (·.kind)

/-- The tokens at hand are of these kinds, and behind them `s'` is left. -/
def Takes : List Kind → State → State → Prop
  | [], s, s' => s' = s
  | k :: kinds, s, s' => s.next? = some k ∧ ∃ s₁, s.drop = .ok s₁ ∧ Takes kinds s₁ s'

@[simp] theorem takes_nil {s s' : State} : Takes [] s s' ↔ s' = s := Iff.rfl

theorem takes_cons {k : Kind} {kinds : List Kind} {s s' : State} :
    Takes (k :: kinds) s s' ↔ ∃ s₁, Takes [k] s s₁ ∧ Takes kinds s₁ s' := by
  simp only [Takes]
  constructor
  · rintro ⟨hk, s₁, hd, h⟩
    exact ⟨s₁, ⟨hk, s₁, hd, rfl⟩, h⟩
  · rintro ⟨s₁, ⟨hk, _, hd, rfl⟩, h⟩
    exact ⟨hk, _, hd, h⟩

theorem takes_append {first rest : List Kind} {s s' : State} :
    Takes (first ++ rest) s s' ↔ ∃ s₁, Takes first s s₁ ∧ Takes rest s₁ s' := by
  induction first generalizing s with
  | nil => simp
  | cons k first ih =>
    rw [List.cons_append, takes_cons]
    simp only [@takes_cons k first]
    constructor
    · rintro ⟨s₁, hk, h⟩
      obtain ⟨s₂, h₁, h₂⟩ := ih.1 h
      exact ⟨s₂, ⟨s₁, hk, h₁⟩, h₂⟩
    · rintro ⟨s₂, ⟨s₁, hk, h₁⟩, h₂⟩
      exact ⟨s₁, hk, ih.2 ⟨s₂, h₁, h₂⟩⟩

theorem drop_withEnv (s : State) (env : Environment) :
    drop { s with env } = s.drop.map fun s => { s with env } := by
  obtain ⟨input, env'⟩ := s
  simp only [drop]
  split <;> rfl

theorem takes_withEnv {kinds : List Kind} {s s' : State} {env : Environment} :
    Takes kinds { s with env } s' ↔ ∃ s₁, Takes kinds s s₁ ∧ s' = { s₁ with env } := by
  induction kinds generalizing s with
  | nil => simp
  | cons k kinds ih =>
    have hn : next? { s with env } = s.next? := rfl
    simp only [Takes, hn, drop_withEnv]
    rcases s.drop with e | s₁
    · simp [Except.map]
    · simp [Except.map, ih, and_assoc]

theorem env_of_drop {s s' : State} (h : s.drop = .ok s') : s'.env = s.env := by
  simp only [drop] at h
  split at h <;> simp only [Except.ok.injEq, reduceCtorEq] at h
  rw [← h]

theorem Takes.env_eq : ∀ {kinds : List Kind} {s s' : State}, Takes kinds s s' → s'.env = s.env
  | [], s, s', h => by rw [takes_nil.1 h]
  | k :: kinds, s, s', ⟨_, s₁, hd, h⟩ => by rw [h.env_eq, env_of_drop hd]

theorem Takes.next?_eq {k : Kind} {kinds : List Kind} {s s' : State}
    (h : Takes (k :: kinds) s s') : s.next? = some k := h.1

theorem drop_eq_ok_iff {s s' : State} {t : Token} (ht : s.current? = some t) :
    s.drop = .ok s' ↔ s.input.tokens = t :: s'.input.tokens ∧ s'.input.stop = s.input.stop ∧
      s'.env = s.env ∧ (s'.input.tokens ≠ [] ∨ s.input.stop = none) := by
  constructor
  · intro h
    obtain ⟨htokens, hstop, henv⟩ := drop_eq_ok ht h
    refine ⟨htokens, hstop, henv, ?_⟩
    obtain ⟨⟨tokens, stop⟩, env⟩ := s
    simp only at htokens
    subst htokens
    cases hrest : s'.input.tokens with
    | cons t' rest => exact .inl (by simp)
    | nil =>
      rw [hrest] at h
      cases stop with
      | none => exact .inr rfl
      | some e => simp [drop] at h
  · obtain ⟨⟨tokens, stop⟩, env⟩ := s
    obtain ⟨⟨tokens', stop'⟩, env'⟩ := s'
    rintro ⟨rfl, rfl, rfl, h⟩
    exact drop_cons h

/-- Taking tokens splits what is left; no error may stand right behind them. -/
theorem takes_iff {kinds : List Kind} {s s' : State} :
    Takes kinds s s' ↔
      (∃ ts, s.input.tokens = ts ++ s'.input.tokens ∧ ts.map (·.kind) = kinds) ∧
        s'.input.stop = s.input.stop ∧ s'.env = s.env ∧
        (kinds ≠ [] → s'.input.tokens ≠ [] ∨ s.input.stop = none) := by
  induction kinds generalizing s with
  | nil =>
    obtain ⟨⟨tokens, stop⟩, env⟩ := s
    obtain ⟨⟨tokens', stop'⟩, env'⟩ := s'
    simp only [takes_nil, State.mk.injEq, TokenStream.mk.injEq, List.map_eq_nil_iff,
      exists_eq_right, List.nil_append, ne_eq, not_true_eq_false, false_implies, and_true]
    grind
  | cons k kinds ih =>
    simp only [Takes, next?, Option.map_eq_some_iff]
    constructor
    · rintro ⟨⟨t, ht, rfl⟩, s₁, hd, h⟩
      obtain ⟨htokens, hstop, henv, hne⟩ := (drop_eq_ok_iff ht).1 hd
      obtain ⟨⟨ts, hts, rfl⟩, hstop', henv', hne'⟩ := ih.1 h
      refine ⟨⟨t :: ts, by rw [htokens, hts, List.cons_append], rfl⟩, hstop'.trans hstop,
        henv'.trans henv, fun _ => ?_⟩
      cases ts with
      | nil => rwa [← List.nil_append s'.input.tokens, ← hts]
      | cons t' ts => simpa [hstop] using hne' (by simp)
    · rintro ⟨⟨ts, hts, hkinds⟩, hstop, henv, hne⟩
      cases ts with
      | nil => simp at hkinds
      | cons t ts =>
        simp only [List.map_cons, List.cons.injEq] at hkinds
        have ht : s.current? = some t := by simp [current?, hts]
        refine ⟨⟨t, ht, hkinds.1⟩, ⟨⟨ts ++ s'.input.tokens, s.input.stop⟩, s.env⟩,
          (drop_eq_ok_iff ht).2 ⟨by simpa using hts, rfl, rfl, ?_⟩,
          ih.2 ⟨⟨ts, rfl, hkinds.2⟩, hstop, henv, fun _ => hne (by simp)⟩⟩
        rcases hne (by simp) with h | h
        · exact .inl (by simp [h])
        · exact .inr h

theorem Takes.mem {kinds : List Kind} {k : Kind} {s s' : State} (h : Takes kinds s s')
    (hk : k ∈ kinds) : ∃ t ∈ s.input.tokens, t.kind = k := by
  obtain ⟨⟨ts, hts, rfl⟩, -⟩ := takes_iff.1 h
  obtain ⟨t, ht, rfl⟩ := List.mem_map.1 hk
  exact ⟨t, hts ▸ List.mem_append_left _ ht, rfl⟩

theorem Takes.subset {kinds : List Kind} {s s' : State} (h : Takes kinds s s') :
    ∀ t ∈ s'.input.tokens, t ∈ s.input.tokens := by
  obtain ⟨⟨ts, hts, -⟩, -⟩ := takes_iff.1 h
  exact fun t ht => hts ▸ List.mem_append_right _ ht

/-! ## Requiring and accepting -/

variable {α : Type}

theorem at?_eq_true {s : State} {k : Kind} : s.at? k = true ↔ s.next? = some k := by
  simp only [at?, next?]
  cases s.current? <;> simp

theorem takes_singleton {k : Kind} {s s' : State} :
    Takes [k] s s' ↔ ∃ t, s.current? = some t ∧ t.kind = k ∧ s.drop = .ok s' := by
  simp only [Takes, next?, Option.map_eq_some_iff]
  constructor
  · rintro ⟨⟨t, ht, hk⟩, s₁, hd, rfl⟩
    exact ⟨t, ht, hk, hd⟩
  · rintro ⟨t, ht, hk, hd⟩
    exact ⟨⟨t, ht, hk⟩, s', hd, rfl⟩

theorem accept?_eq_none {s : State} {cls : Kind → Option α} :
    s.accept? cls = .ok none ↔ s.next?.bind cls = none := by
  simp only [accept?, next?]
  cases s.current? with
  | none => simp
  | some t =>
    simp only [Option.bind_some, Option.map_some]
    cases cls t.kind with
    | none => simp
    | some b => simp [bind_eq_ok, pure, Except.pure]

theorem accept?_eq_some {s s' : State} {cls : Kind → Option α} {a : α} :
    s.accept? cls = .ok (some (a, s')) ↔ ∃ k, cls k = some a ∧ Takes [k] s s' := by
  simp only [accept?_eq_ok, takes_singleton]
  grind

theorem isExactly_eq_some {kind k : Kind} {u : Unit} : isExactly kind k = some u ↔ k = kind := by
  simp [isExactly]

theorem requireSymbol_eq_ok {s s' : State} {c : Char} :
    s.requireSymbol c = .ok s' ↔ Takes [.symbol c] s s' := by
  simp only [requireSymbol, bind_eq_ok, Prod.exists, require_eq_ok, isExactly_eq_some, pure,
    Except.pure, Except.ok.injEq, takes_singleton]
  grind

theorem requireKeyword_eq_ok {s s' : State} {k : Keyword} :
    s.requireKeyword k = .ok s' ↔ Takes [.keyword k] s s' := by
  simp only [requireKeyword, bind_eq_ok, Prod.exists, require_eq_ok, isExactly_eq_some, pure,
    Except.pure, Except.ok.injEq, takes_singleton]
  grind

theorem requireName_eq_ok {s s' : State} {expected name : String} :
    (∃ span, s.requireName expected = .ok (name, span, s')) ↔
      Takes [.identifier name] s s' := by
  simp only [requireName, require_eq_ok, identifier?_eq_some, takes_singleton]
  grind

theorem typeName?_eq_some {k : Kind} {typeName : String} :
    typeName? k = some typeName ↔ ∃ v : VariableType, v.text = typeName ∧ v.token = k := by
  constructor
  · intro h
    unfold typeName? at h
    split at h <;> simp only [Option.some.injEq, reduceCtorEq] at h
    · exact ⟨.object _, h, rfl⟩
    · exact ⟨.int, h, rfl⟩
    · exact ⟨.char, h, rfl⟩
    · exact ⟨.boolean, h, rfl⟩
  · rintro ⟨v, rfl, rfl⟩
    cases v <;> rfl

theorem requireType_eq_ok {s s' : State} {typeName : String} :
    s.requireType = .ok (typeName, s') ↔
      ∃ v : VariableType, v.text = typeName ∧ Takes [v.token] s s' := by
  simp only [requireType, bind_eq_ok, Prod.exists, require_eq_ok, typeName?_eq_some, pure,
    Except.pure, Except.ok.injEq, Prod.mk.injEq, takes_singleton]
  grind

end State

end Jack.Compiler

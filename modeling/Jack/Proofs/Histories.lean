import Jack.Scope
import Jack.Syntax.Scoping
import Mathlib.Data.List.DropRight
import Std.Data.HashMap.Lemmas

/-!
# Scopes over any history

A scope may be told to define a name, again and with another kind as well, and to forget everything.
What it answers after any history of this comes from the declarations since the last time it forgot
(`Recalls`): one more declaration is one more of its kind, and hides an earlier one of its name
without giving its index away (`Recalls.define`). A table that keeps no history, but the symbol of
each name and the number of definitions of each kind, answers the same (`recalls_after`).
-/

namespace Jack

open Syntax

namespace Scope

/-! ## Histories -/

inductive Change
  | define (d : Declared)
  | reset
  deriving DecidableEq, Repr

namespace Change

def declared? : Change → Option Declared
  | define d => some d
  | reset => none

/-- The declarations of a history behind its last reset. -/
def sinceReset (history : List Change) : List Declared :=
  (history.rtakeWhile (· ≠ reset)).filterMap declared?

theorem sinceReset_define (history : List Change) (d : Declared) :
    sinceReset (history ++ [define d]) = sinceReset history ++ [d] := by
  rw [sinceReset, List.rtakeWhile_concat_pos _ _ _ (by simp), List.filterMap_append]
  rfl

theorem sinceReset_reset (history : List Change) : sinceReset (history ++ [reset]) = [] := by
  rw [sinceReset, List.rtakeWhile_concat_neg _ _ _ (by simp)]
  rfl

end Change

def apply (s : Scope) : Change → Scope
  | .define d => s.define d.name d.typeName d.kind
  | .reset => empty

/-- The scope behind a history. -/
def after (history : List Change) : Scope := history.foldl apply empty

/-! ## Answers -/

/-- The symbol that the last declaration of the name makes. -/
def LastNamed (ds : List Declared) (name : String) (s : Symbol) : Prop :=
  ∃ before d later, ds = before ++ d :: later ∧ d.name = name ∧ (∀ e ∈ later, e.name ≠ name) ∧
    s = ⟨d.name, d.typeName, d.kind, before.countP (·.kind = d.kind)⟩

/-- The numbers and symbols that are answered are those of the declarations: a name has the symbol
of its last declaration, and its index is the number of earlier ones of that kind. No two names that
are visible have the same slot. -/
structure Recalls (ds : List Declared) (count : Symbol.Kind → Nat)
    (lookup : String → Option Symbol) : Prop where
  count_eq : ∀ kind, count kind = ds.countP (·.kind = kind)
  lookup_eq_some : ∀ name s, lookup name = some s ↔ LastNamed ds name s
  lookup_eq_none : ∀ name, lookup name = none ↔ ∀ d ∈ ds, d.name ≠ name
  apart : ∀ name name' s s', lookup name = some s → lookup name' = some s' → s.kind = s'.kind →
    s.index = s'.index → name = name'
  below : ∀ name s, lookup name = some s → s.index < count s.kind

section LastNamed

variable {ds : List Declared} {d : Declared} {name : String} {s : Symbol}

theorem lastNamed_append_singleton : LastNamed (ds ++ [d]) name s ↔
    if d.name = name then s = ⟨d.name, d.typeName, d.kind, ds.countP (·.kind = d.kind)⟩
    else LastNamed ds name s := by
  constructor
  · rintro ⟨before, e, later, hds, hname, hlater, hs⟩
    rcases List.eq_nil_or_concat later with rfl | ⟨later, e', rfl⟩
    · obtain ⟨rfl, he⟩ := List.append_inj' hds rfl
      obtain rfl : d = e := by simpa using he
      rwa [if_pos hname]
    · rw [List.concat_eq_append, ← List.cons_append, ← List.append_assoc] at hds
      obtain ⟨rfl, he⟩ := List.append_inj' hds rfl
      obtain rfl : d = e' := by simpa using he
      rw [List.concat_eq_append, List.forall_mem_append] at hlater
      rw [if_neg (hlater.2 d (by simp))]
      exact ⟨before, e, later, rfl, hname, hlater.1, hs⟩
  · intro h
    split at h
    · rename_i hname
      exact ⟨ds, d, [], rfl, hname, by simp, h⟩
    · rename_i hname
      obtain ⟨before, e, later, rfl, he, hlater, hs⟩ := h
      refine ⟨before, e, later ++ [d], by simp, he, ?_, hs⟩
      rw [List.forall_mem_append]
      exact ⟨hlater, by simpa using hname⟩

end LastNamed

namespace Recalls

variable {ds : List Declared} {count count' : Symbol.Kind → Nat}
  {lookup lookup' : String → Option Symbol}

theorem nil (hcount : ∀ kind, count kind = 0) (hlookup : ∀ name, lookup name = none) :
    Recalls [] count lookup where
  count_eq := hcount
  lookup_eq_some name s := by simp [hlookup, LastNamed]
  lookup_eq_none name := by simp [hlookup]
  apart name name' s s' h := by simp [hlookup] at h
  below name s h := by simp [hlookup] at h

/-- One more declaration takes the next index of its kind, whatever its name stood for. -/
theorem define (h : Recalls ds count lookup) (d : Declared)
    (hcount : ∀ kind, count' kind = count kind + if d.kind = kind then 1 else 0)
    (hlookup : ∀ name, lookup' name =
      if d.name = name then some ⟨d.name, d.typeName, d.kind, count d.kind⟩ else lookup name) :
    Recalls (ds ++ [d]) count' lookup' := by
  -- A symbol that is still visible has an index below those given out from now on.
  have hold : ∀ name s, lookup name = some s → ¬ (s.kind = d.kind ∧ s.index = count d.kind) := by
    rintro name s hs ⟨hkind, hindex⟩
    have hlt := h.below name s hs
    rw [hkind, hindex] at hlt
    exact absurd hlt (Nat.lt_irrefl _)
  refine ⟨fun kind => ?_, fun name s => ?_, fun name => ?_,
    fun name name' s s' hs hs' hkind hindex => ?_, fun name s hs => ?_⟩
  · rw [hcount, h.count_eq, List.countP_append, List.countP_singleton]
    simp
  · rw [hlookup, lastNamed_append_singleton, ← h.count_eq]
    split
    · rw [Option.some.injEq, eq_comm]
    · exact h.lookup_eq_some name s
  · rw [hlookup, List.forall_mem_append]
    split
    · rename_i hname
      simp [hname]
    · rename_i hname
      simp [h.lookup_eq_none, hname]
  · rw [hlookup] at hs hs'
    split at hs <;> split at hs'
    · rename_i hname hname'
      exact hname.symm.trans hname'
    · obtain rfl := Option.some.inj hs
      exact absurd ⟨hkind.symm, hindex.symm⟩ (hold name' s' hs')
    · obtain rfl := Option.some.inj hs'
      exact absurd ⟨hkind, hindex⟩ (hold name s hs)
    · exact h.apart name name' s s' hs hs' hkind hindex
  · rw [hlookup] at hs
    rw [hcount]
    split at hs
    · obtain rfl := Option.some.inj hs
      simp
    · exact Nat.lt_add_right _ (h.below name s hs)

end Recalls

/-! ## Two maps -/

deriving instance Hashable for Symbol.Kind

/-- A scope without its history: the symbol of each name, and the number of definitions of each
kind. -/
structure Table where
  symbols : Std.HashMap String Symbol := {}
  counts : Std.HashMap Symbol.Kind Nat := {}

namespace Table

def count (t : Table) (kind : Symbol.Kind) : Nat := t.counts.getD kind 0

def lookup (t : Table) (name : String) : Option Symbol := t.symbols[name]?

def define (t : Table) (d : Declared) : Table :=
  { symbols := t.symbols.insert d.name ⟨d.name, d.typeName, d.kind, t.count d.kind⟩
    counts := t.counts.insert d.kind (t.count d.kind + 1) }

def apply (t : Table) : Change → Table
  | .define d => t.define d
  | .reset => {}

def after (history : List Change) : Table := history.foldl apply {}

theorem count_define (t : Table) (d : Declared) (kind : Symbol.Kind) :
    (t.define d).count kind = t.count kind + if d.kind = kind then 1 else 0 := by
  simp only [count, define, Std.HashMap.getD_insert, beq_iff_eq]
  split
  · rename_i hkind
    rw [hkind]
  · rfl

theorem lookup_define (t : Table) (d : Declared) (name : String) :
    (t.define d).lookup name =
      if d.name = name then some ⟨d.name, d.typeName, d.kind, t.count d.kind⟩
      else t.lookup name := by
  simp only [lookup, define, Std.HashMap.getElem?_insert, beq_iff_eq]

end Table

/-! ## Any history -/

/-- A scope, and a table as well, answers what the declarations since the last reset say. -/
theorem recalls_after (history : List Change) :
    Recalls (Change.sinceReset history) (after history).count (after history).lookup ∧
      Recalls (Change.sinceReset history) (Table.after history).count
        (Table.after history).lookup := by
  have hempty : Recalls [] empty.count empty.lookup := .nil (fun _ => rfl) fun _ => rfl
  have htable : Recalls [] (Table.count {}) (Table.lookup {}) :=
    .nil (fun _ => by simp [Table.count]) fun _ => by simp [Table.lookup]
  induction history using List.reverseRecOn with
  | nil => exact ⟨hempty, htable⟩
  | append_singleton history change ih =>
    rw [after, Table.after, List.foldl_append, List.foldl_append, ← after, ← Table.after]
    cases change with
    | define d =>
      rw [Change.sinceReset_define]
      exact ⟨ih.1.define d (fun kind => count_define _ _ _ d.kind kind)
          fun name => lookup_define _ d.name d.typeName name d.kind,
        ih.2.define d (Table.count_define _ d) (Table.lookup_define _ d)⟩
    | reset =>
      rw [Change.sinceReset_reset]
      exact ⟨hempty, htable⟩

/-- A name that is defined again, with another kind, leaves a hole in the indices of the first. -/
example : (after [.define ⟨"a", "int", .localVar⟩, .define ⟨"a", "int", .argument⟩,
    .define ⟨"b", "int", .localVar⟩]).lookup "b" = some ⟨"b", "int", .localVar, 1⟩ := by decide

end Scope

end Jack

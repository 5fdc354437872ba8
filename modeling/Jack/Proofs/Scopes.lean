import Jack.Proofs.Meaning
import Mathlib.Data.List.Induction
import Mathlib.Data.List.Nodup

/-!
# The scopes of a subroutine

Declarations are made one after the other, each in the scope of its kind. A scope takes them all just
when none names what is there already (`Scope.declareAll_eq_some`), and then holds the symbols of the
declarations, the latest first (`Scope.symbols_defineAll`). As no two of them have the same name, it
does not matter from which end a name is looked for (`lookup_defineAll`).
-/

namespace Jack

open Syntax

variable {ds ds' : List Declared}

/-! ## Symbols of declarations -/

theorem symbols_snoc (ds : List Declared) (d : Declared) :
    symbols (ds ++ [d]) =
      symbols ds ++ [⟨d.name, d.typeName, d.kind, ds.countP (·.kind = d.kind)⟩] := by
  simp only [symbols, List.zipIdx_append, List.map_append, List.zipIdx_singleton, Nat.zero_add,
    List.map_singleton, List.take_left']
  congr 1
  refine List.map_congr_left fun p hp => ?_
  have hlt := List.snd_lt_of_mem_zipIdx hp
  rw [List.take_append_of_le_length (by omega)]

theorem map_name_symbols (ds : List Declared) :
    (symbols ds).map (·.name) = ds.map (·.name) := by
  simp only [symbols, List.map_map, Function.comp_def]
  rw [show (fun p : Declared × Nat => p.1.name) = (·.name) ∘ Prod.fst from rfl, ← List.map_map,
    List.zipIdx_map_fst]

theorem namesOnce_append : NamesOnce (ds ++ ds') ↔
    NamesOnce ds ∧ NamesOnce ds' ∧ ∀ d ∈ ds, ∀ d' ∈ ds', d.name ≠ d'.name := by
  simp [NamesOnce, List.nodup_append]

/-- Where a name occurs once, any search for it finds the same. -/
theorem find?_name_eq_some {l : List Symbol} (h : (l.map (·.name)).Nodup) {name : String}
    {s : Symbol} : l.find? (·.name = name) = some s ↔ s ∈ l ∧ s.name = name := by
  constructor
  · intro hf
    exact ⟨List.mem_of_find?_eq_some hf, by simpa using List.find?_some hf⟩
  · rintro ⟨hs, rfl⟩
    obtain ⟨s', hf⟩ := Option.isSome_iff_exists.1
      (List.find?_isSome (p := fun x : Symbol => decide (x.name = s.name)) |>.2
        ⟨s, hs, by simp⟩)
    have hname : s'.name = s.name := by simpa using List.find?_some hf
    rw [hf, List.inj_on_of_nodup_map h (List.mem_of_find?_eq_some hf) hs hname]

namespace Scope

variable {s s' : Scope}

/-! ## Making declarations -/

def defineAll (s : Scope) (ds : List Declared) : Scope :=
  ds.foldl (fun s d => s.define d.name d.typeName d.kind) s

/-- Makes declarations one after the other; none may name what the scope has already. -/
def declareAll (s : Scope) : List Declared → Option Scope
  | [] => some s
  | d :: rest =>
    if (s.lookup d.name).isSome then none
    else (s.define d.name d.typeName d.kind).declareAll rest

theorem defineAll_append (s : Scope) (ds ds' : List Declared) :
    s.defineAll (ds ++ ds') = (s.defineAll ds).defineAll ds' := List.foldl_append

theorem declareAll_eq_some : s.declareAll ds = some s' ↔
    (NamesOnce ds ∧ ∀ d ∈ ds, s.lookup d.name = none) ∧ s' = s.defineAll ds := by
  induction ds generalizing s with
  | nil => simp [declareAll, defineAll, NamesOnce, eq_comm]
  | cons d ds ih =>
    have hlookup : (∀ e ∈ ds, (s.define d.name d.typeName d.kind).lookup e.name = none) ↔
        ∀ e ∈ ds, d.name ≠ e.name ∧ s.lookup e.name = none := by
      refine forall₂_congr fun e _ => ?_
      rw [lookup_define]
      split <;> simp_all
    have hnames : NamesOnce (d :: ds) ↔ (∀ e ∈ ds, d.name ≠ e.name) ∧ NamesOnce ds := by
      simp [NamesOnce, eq_comm]
    simp only [declareAll, List.forall_mem_cons, hnames]
    split
    · rename_i hs
      rw [Option.isSome_iff_ne_none] at hs
      simp [hs]
    · rename_i hs
      rw [Option.not_isSome_iff_eq_none] at hs
      rw [ih, hlookup]
      simp only [hs, true_and, defineAll, List.foldl_cons, forall_and]
      tauto

theorem count_defineAll (s : Scope) (ds : List Declared) (kind : Symbol.Kind) :
    (s.defineAll ds).count kind = s.count kind + ds.countP (·.kind = kind) := by
  induction ds generalizing s with
  | nil => simp [defineAll]
  | cons d ds ih =>
    have h := ih (s.define d.name d.typeName d.kind)
    simp only [defineAll, List.foldl_cons] at h ⊢
    rw [h, count_define, List.countP_cons]
    simp only [decide_eq_true_eq]
    omega

theorem symbols_defineAll (ds : List Declared) :
    (empty.defineAll ds).symbols = (Syntax.symbols ds).reverse := by
  induction ds using List.reverseRecOn with
  | nil => rfl
  | append_singleton ds d ih =>
    have hcount := count_defineAll empty ds d.kind
    rw [count_empty, Nat.zero_add] at hcount
    rw [symbols_snoc, List.reverse_append, ← ih, defineAll_append, ← hcount]
    rfl

theorem lookup_defineAll (h : NamesOnce ds) (name : String) :
    (empty.defineAll ds).lookup name = (Syntax.symbols ds).find? (·.name = name) := by
  have hn : ((Syntax.symbols ds).map (·.name)).Nodup := by rwa [map_name_symbols]
  have hr : ((Syntax.symbols ds).reverse.map (·.name)).Nodup := by
    rw [List.map_reverse, List.nodup_reverse]
    exact hn
  ext s
  rw [lookup, symbols_defineAll, find?_name_eq_some hr, find?_name_eq_some hn, List.mem_reverse]

end Scope

namespace Environment

variable {env env' : Environment}

/-- What a class declares goes to the scope of the class. -/
theorem declareAll_of_class (h : ∀ d ∈ ds, d.kind = .staticVar ∨ d.kind = .field) :
    env.declareAll ds =
      (env.classScope.declareAll ds).map fun classScope => { env with classScope } := by
  induction ds generalizing env with
  | nil => rfl
  | cons d ds ih =>
    obtain ⟨hd, h⟩ := List.forall_mem_cons.1 h
    simp only [declareAll, Scope.declareAll]
    rcases hd with hk | hk <;> simp only [hk, scopeOf] <;> split <;>
      first | rfl | (rw [ih h]; simp [define])

/-- What a subroutine declares goes to the scope of the subroutine. -/
theorem declareAll_of_subroutine (h : ∀ d ∈ ds, d.kind = .argument ∨ d.kind = .localVar) :
    env.declareAll ds = (env.subroutineScope.declareAll ds).map
      fun subroutineScope => { env with subroutineScope } := by
  induction ds generalizing env with
  | nil => rfl
  | cons d ds ih =>
    obtain ⟨hd, h⟩ := List.forall_mem_cons.1 h
    simp only [declareAll, Scope.declareAll]
    rcases hd with hk | hk <;> simp only [hk, scopeOf] <;> split <;>
      first | rfl | (rw [ih h]; simp [define])

end Environment

end Jack

import Jack.Machine.Program
import Mathlib.Data.List.Induction

/-!
# Where functions and labels stand

A program's tables say where the last definition of each function begins and where the last label of
each name in each function stands (`functions_eq_some`, `labels_eq_some`). What occurs in the code is
in the tables, at its own place or at a later one.
-/

namespace Jack.Machine.Program

/-- The number is the largest one that has the property. -/
def Last (P : Nat → Prop) (n : Nat) : Prop := P n ∧ ∀ k, P k → k ≤ n

section Last

variable {P Q : Nat → Prop} {n k : Nat}

theorem Last.unique (h : Last P n) (h' : Last P k) : n = k :=
  Nat.le_antisymm (h'.2 n h.1) (h.2 k h'.1)

theorem last_congr (h : ∀ k, P k ↔ Q k) : Last P n ↔ Last Q n := by simp only [Last, h]

theorem last_eq_iff (hn : P n) (h : ∀ k, P k → k ≤ n) : Last P k ↔ n = k :=
  ⟨fun h' => Last.unique ⟨hn, h⟩ h', fun heq => heq ▸ ⟨hn, h⟩⟩

/-- What occurs below a bound has a last place. -/
theorem exists_last (hb : ∀ k, P k → k ≤ n) (hk : P k) : ∃ j ≥ k, Last P j := by
  induction n generalizing k with
  | zero => exact ⟨k, Nat.le_refl k, hk, fun j hj => Nat.le_trans (hb j hj) (Nat.zero_le k)⟩
  | succ n ih =>
    by_cases hn : P (n + 1)
    · exact ⟨n + 1, hb k hk, hn, hb⟩
    · refine ih (fun j hj => ?_) hk
      have hle := hb j hj
      have hne : j ≠ n + 1 := by
        rintro rfl
        exact hn hj
      omega

end Last

/-- The function that code belongs to which follows on the given code. -/
def functionBehind (code : List Instruction) : String :=
  code.foldl (fun f i => match i with
    | .function name _ => name
    | _ => f) ""

/-- The function that an address belongs to. -/
def functionAt (code : List Instruction) (pc : Nat) : String := functionBehind (code.take pc)

/-- The function that is defined here. -/
def defined? : Instruction → Option String
  | .function name _ => some name
  | _ => none

/-- A definition of the function begins at the address. -/
def DefinesAt (code : List Instruction) (name : String) (pc : Nat) : Prop :=
  ∃ n, code[pc]? = some (.function name n)

/-- A label of the function stands at the address. -/
def LabelsAt (code : List Instruction) (function name : String) (pc : Nat) : Prop :=
  code[pc]? = some (.label name) ∧ functionAt code pc = function

section Code

variable {code : List Instruction} {i : Instruction} {function name : String} {pc : Nat}

theorem getElem?_snoc_eq_some {j : Instruction} :
    (code ++ [i])[pc]? = some j ↔ code[pc]? = some j ∨ pc = code.length ∧ i = j := by
  rcases Nat.lt_trichotomy pc code.length with h | h | h
  · rw [List.getElem?_append_left h]
    simp [Nat.ne_of_lt h]
  · subst h
    simp
  · rw [List.getElem?_eq_none (by simp; omega), List.getElem?_eq_none (by omega)]
    simp
    omega

theorem functionAt_append {rest : List Instruction} (h : pc ≤ code.length) :
    functionAt (code ++ rest) pc = functionAt code pc := by
  rw [functionAt, functionAt, List.take_append_of_le_length h]

theorem DefinesAt.lt (h : DefinesAt code name pc) : pc < code.length :=
  (List.getElem?_eq_some_iff.1 h.choose_spec).1

theorem LabelsAt.lt (h : LabelsAt code function name pc) : pc < code.length :=
  (List.getElem?_eq_some_iff.1 h.1).1

theorem definesAt_snoc : DefinesAt (code ++ [i]) name pc ↔
    DefinesAt code name pc ∨ pc = code.length ∧ ∃ n, i = .function name n := by
  simp only [DefinesAt, getElem?_snoc_eq_some, exists_or, exists_and_left]

theorem labelsAt_snoc : LabelsAt (code ++ [i]) function name pc ↔
    LabelsAt code function name pc ∨
      pc = code.length ∧ i = .label name ∧ functionBehind code = function := by
  have hbehind : functionAt code code.length = functionBehind code := by
    rw [functionAt, List.take_length]
  constructor
  · rintro ⟨h, hf⟩
    rcases getElem?_snoc_eq_some.1 h with h | ⟨rfl, rfl⟩
    · have hlt := (List.getElem?_eq_some_iff.1 h).1
      rw [functionAt_append (by omega)] at hf
      exact .inl ⟨h, hf⟩
    · rw [functionAt_append (Nat.le_refl _), hbehind] at hf
      exact .inr ⟨rfl, rfl, hf⟩
  · rintro (h | ⟨rfl, rfl, hf⟩)
    · exact ⟨getElem?_snoc_eq_some.2 (.inl h.1), by rw [functionAt_append (Nat.le_of_lt h.lt), h.2]⟩
    · exact ⟨getElem?_snoc_eq_some.2 (.inr ⟨rfl, rfl⟩), by
        rw [functionAt_append (Nat.le_refl _), hbehind, hf]⟩

/-- The index knows the code. -/
structure Index.Covers (index : Index) (code : List Instruction) : Prop where
  address : index.address = code.length
  function : index.function = functionBehind code
  functions : ∀ name pc, index.functions[name]? = some pc ↔ Last (DefinesAt code name) pc
  labels : ∀ function name pc, index.labels[(function, name)]? = some pc ↔
    Last (LabelsAt code function name) pc

theorem Index.covers_nil : Index.Covers {} [] where
  address := rfl
  function := rfl
  functions name pc := by simp [Last, DefinesAt]
  labels function name pc := by simp [Last, LabelsAt]

theorem Index.Covers.add {index : Index} (h : index.Covers code) (i : Instruction) :
    (index.add i).Covers (code ++ [i]) where
  address := by cases i <;> simp [Index.add, h.address]
  function := by cases i <;> simp [Index.add, functionBehind, h.function]
  functions name pc := by
    by_cases hi : ∃ n, i = .function name n
    · obtain ⟨n, rfl⟩ := hi
      rw [last_eq_iff (definesAt_snoc.2 (.inr ⟨rfl, n, rfl⟩)) fun k hk => by
        have := hk.lt
        simp at this
        omega]
      simp [Index.add, h.address]
    · have hsame : (index.add i).functions[name]? = index.functions[name]? := by
        cases i with
        | function other n =>
          have hne : other ≠ name := by
            rintro rfl
            exact hi ⟨n, rfl⟩
          simp [Index.add, Std.HashMap.getElem?_insert, hne]
        | _ => rfl
      rw [hsame, h.functions name pc]
      refine last_congr fun k => ?_
      rw [definesAt_snoc]
      simp [hi]
  labels function name pc := by
    by_cases hi : i = .label name ∧ functionBehind code = function
    · obtain ⟨rfl, rfl⟩ := hi
      rw [last_eq_iff (labelsAt_snoc.2 (.inr ⟨rfl, rfl, rfl⟩)) fun k hk => by
        have := hk.lt
        simp at this
        omega]
      simp [Index.add, h.address, h.function]
    · have hsame : (index.add i).labels[(function, name)]? = index.labels[(function, name)]? := by
        cases i with
        | label other =>
          have hne : ¬ (index.function = function ∧ other = name) := by
            rintro ⟨hf, rfl⟩
            exact hi ⟨rfl, h.function ▸ hf⟩
          simp [Index.add, Std.HashMap.getElem?_insert, hne]
        | _ => rfl
      rw [hsame, h.labels function name pc]
      refine last_congr fun k => ?_
      rw [labelsAt_snoc]
      simp [hi]

theorem covers_foldl (code : List Instruction) : (code.foldl Index.add {}).Covers code := by
  induction code using List.reverseRecOn with
  | nil => exact Index.covers_nil
  | append_singleton code i ih =>
    rw [List.foldl_append]
    exact ih.add i

/-! ## The tables of a program -/

@[simp] theorem code_ofInstructions : (ofInstructions code).code = code.toArray := rfl

theorem functions_eq_some :
    (ofInstructions code).functions[name]? = some pc ↔ Last (DefinesAt code name) pc :=
  (covers_foldl code).functions name pc

/-- A function begins where it is defined with no definition behind. -/
theorem functions_of_getElem? {n : Nat} (h : code[pc]? = some (.function name n))
    (hlater : ∀ i ∈ code.drop (pc + 1), defined? i ≠ some name) :
    (ofInstructions code).functions[name]? = some pc := by
  refine functions_eq_some.2 ⟨⟨n, h⟩, fun k ⟨n', hk⟩ => Nat.le_of_not_lt fun hlt => ?_⟩
  have hmem : .function name n' ∈ code.drop (pc + 1) := by
    refine List.mem_of_getElem? (i := k - (pc + 1)) ?_
    rw [List.getElem?_drop, Nat.add_sub_cancel' hlt, hk]
  exact hlater _ hmem rfl

theorem labels_eq_some :
    (ofInstructions code).labels[(function, name)]? = some pc ↔
      Last (LabelsAt code function name) pc :=
  (covers_foldl code).labels function name pc

/-- Of a function that is defined the last definition is known. -/
theorem exists_function (h : DefinesAt code name pc) :
    ∃ q ≥ pc, (ofInstructions code).functions[name]? = some q := by
  obtain ⟨q, hle, hq⟩ := exists_last (fun _ hk => Nat.le_of_lt (DefinesAt.lt hk)) h
  exact ⟨q, hle, functions_eq_some.2 hq⟩

/-- Of a label in a function the last place is known. -/
theorem exists_label (h : LabelsAt code function name pc) :
    ∃ q ≥ pc, (ofInstructions code).labels[(function, name)]? = some q := by
  obtain ⟨q, hle, hq⟩ := exists_last (fun _ hk => Nat.le_of_lt (LabelsAt.lt hk)) h
  exact ⟨q, hle, labels_eq_some.2 hq⟩

/-- What no code defines is not known. -/
theorem functions_eq_none :
    (ofInstructions code).functions[name]? = none ↔ ∀ pc, ¬ DefinesAt code name pc := by
  constructor
  · intro h pc hpc
    obtain ⟨q, -, hq⟩ := exists_function hpc
    rw [hq] at h
    simp at h
  · intro h
    refine Option.eq_none_iff_forall_ne_some.2 fun pc hpc => ?_
    exact h pc (functions_eq_some.1 hpc).1

end Code

end Jack.Machine.Program

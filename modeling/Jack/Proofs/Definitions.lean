import Jack.Proofs.Addresses

/-!
# Programs of definitions

Compiled code is a row of definitions, each a `function` instruction and a body without another one.
A name leads to its last definition (`functions_of_last`), and a label of that definition leads into
its body (`exists_label_of_last`), to the very place if the body has the label but once
(`label_of_last`).
-/

namespace Jack.Machine

/-- A function in the code of a program. -/
structure Definition where
  name : String
  localCount : Nat
  body : List Instruction

namespace Definition

def code (d : Definition) : List Instruction := .function d.name d.localCount :: d.body

@[simp] theorem length_code (d : Definition) : d.code.length = d.body.length + 1 := rfl

/-- No other function begins in the body. -/
def Whole (d : Definition) : Prop := ∀ name n, Instruction.function name n ∉ d.body

end Definition

def codeOf (ds : List Definition) : List Instruction := ds.flatMap Definition.code

theorem codeOf_append (ds ds' : List Definition) : codeOf (ds ++ ds') = codeOf ds ++ codeOf ds' :=
  List.flatMap_append ..

theorem codeOf_cons (d : Definition) (ds : List Definition) :
    codeOf (d :: ds) = d.code ++ codeOf ds := List.flatMap_cons ..

namespace Program

variable {before after : List Definition} {d : Definition} {name : String} {pc i : Nat}
  {code : List Instruction}

/-! ## The function of an address -/

theorem functionBehind_snoc_function (code : List Instruction) (name : String) (n : Nat) :
    functionBehind (code ++ [.function name n]) = name := by
  simp [functionBehind]

/-- Code without a definition belongs to the function that it follows on. -/
theorem functionBehind_append {rest : List Instruction}
    (h : ∀ name n, Instruction.function name n ∉ rest) :
    functionBehind (code ++ rest) = functionBehind code := by
  rw [functionBehind, List.foldl_append, ← functionBehind]
  generalize functionBehind code = f
  induction rest with
  | nil => rfl
  | cons i rest ih =>
    have hi : ∀ name n, i ≠ .function name n := by
      rintro name n rfl
      exact h name n (by simp)
    rw [List.foldl_cons]
    cases i with
    | function name n => exact absurd rfl (hi name n)
    | _ => exact ih fun name n hmem => h name n (List.mem_cons_of_mem _ hmem)

theorem codeOf_split : codeOf (before ++ d :: after) =
    (codeOf before ++ [Instruction.function d.name d.localCount]) ++ (d.body ++ codeOf after) := by
  rw [codeOf_append, codeOf_cons, Definition.code]
  simp

/-- In the body of a definition one is in its function. -/
theorem functionAt_body (hd : d.Whole) (hi : i ≤ d.body.length) :
    functionAt (codeOf (before ++ d :: after)) ((codeOf before).length + 1 + i) = d.name := by
  have hlength : (codeOf before).length + 1 + i =
      (codeOf before ++ [Instruction.function d.name d.localCount]).length + i := by simp
  rw [functionAt, codeOf_split, hlength, List.take_length_add_append,
    List.take_append_of_le_length hi,
    functionBehind_append fun name n hmem => hd name n (List.mem_of_mem_take hmem),
    functionBehind_snoc_function]

theorem getElem?_body :
    (codeOf (before ++ d :: after))[(codeOf before).length + 1 + i]? =
      (d.body ++ codeOf after)[i]? := by
  rw [codeOf_split, List.getElem?_append_right (by simp)]
  simp

theorem getElem?_entry : (codeOf (before ++ d :: after))[(codeOf before).length]? =
    some (.function d.name d.localCount) := by
  rw [codeOf_append, codeOf_cons, Definition.code, List.getElem?_append_right (Nat.le_refl _)]
  simp

/-- Every address is at the entry of a definition or in the body of one. -/
theorem exists_definition {ds : List Definition} (h : pc < (codeOf ds).length) :
    ∃ before d after, ds = before ++ d :: after ∧ (pc = (codeOf before).length ∨
      ∃ i < d.body.length, pc = (codeOf before).length + 1 + i) := by
  induction ds generalizing pc with
  | nil => simp [codeOf] at h
  | cons d ds ih =>
    rcases Nat.lt_or_ge pc d.code.length with hlt | hge
    · refine ⟨[], d, ds, rfl, ?_⟩
      cases pc with
      | zero => exact .inl rfl
      | succ i => exact .inr ⟨i, by simpa using hlt, by simp [codeOf, Nat.add_comm]⟩
    · rw [codeOf_cons, List.length_append] at h
      obtain ⟨before, d', after, rfl, hpc⟩ := @ih (pc - d.code.length) (by omega)
      refine ⟨d :: before, d', after, rfl, ?_⟩
      rw [codeOf_cons, List.length_append]
      rcases hpc with hpc | ⟨i, hi, hpc⟩
      · exact .inl (by omega)
      · exact .inr ⟨i, hi, by omega⟩

/-! ## Definitions in code -/

end Program

/-- The definition is in the code, up to where the next one begins or the code ends. -/
def Definition.IsIn (d : Definition) (code : List Instruction) : Prop :=
  ∃ before after, code = before ++ d.code ++ after ∧ d.Whole ∧
    ∀ i ∈ after.head?, ∃ name n, i = .function name n

theorem function_of_head?_codeOf {ds : List Definition} :
    ∀ i ∈ (codeOf ds).head?, ∃ name n, i = .function name n := by
  intro i hi
  cases ds with
  | nil => simp [codeOf] at hi
  | cons d ds =>
    rw [codeOf_cons, Definition.code, List.cons_append, List.head?_cons] at hi
    exact ⟨d.name, d.localCount, (Option.some.inj hi).symm⟩

/-- A body ends where a function begins. -/
theorem body_inj {body body' after after' : List Instruction}
    (hbody : ∀ name n, Instruction.function name n ∉ body)
    (hbody' : ∀ name n, Instruction.function name n ∉ body')
    (hafter : ∀ i ∈ after.head?, ∃ name n, i = .function name n)
    (hafter' : ∀ i ∈ after'.head?, ∃ name n, i = .function name n)
    (h : body ++ after = body' ++ after') : body = body' := by
  rcases List.append_eq_append_iff.1 h with ⟨c, rfl, hc⟩ | ⟨c, rfl, hc⟩
  · cases c with
    | nil => simp
    | cons i c =>
      obtain ⟨name, n, rfl⟩ := hafter i (by simp [hc])
      exact absurd (by simp) (hbody' name n)
  · cases c with
    | nil => simp
    | cons i c =>
      obtain ⟨name, n, rfl⟩ := hafter' i (by simp [hc])
      exact absurd (by simp) (hbody name n)

theorem isIn_codeOf {ds : List Definition} {d : Definition} (hds : ∀ d ∈ ds, d.Whole) :
    d.IsIn (codeOf ds) ↔ d ∈ ds := by
  constructor
  · rintro ⟨before, after, heq, hd, hafter⟩
    rw [List.append_assoc] at heq
    have hlt : before.length < (codeOf ds).length := by
      simp only [heq, List.length_append, Definition.length_code]
      omega
    have hentry : (codeOf ds)[before.length]? = some (.function d.name d.localCount) := by
      rw [heq, List.getElem?_append_right (Nat.le_refl _), Nat.sub_self]
      rfl
    obtain ⟨before', e, after', rfl, hpc | ⟨i, hi, hpc⟩⟩ := Program.exists_definition hlt
    · rw [codeOf_append, codeOf_cons] at heq
      have hrest := (List.append_inj heq hpc.symm).2
      simp only [Definition.code, List.cons_append, List.cons.injEq,
        Instruction.function.injEq] at hrest
      obtain ⟨⟨hname, hcount⟩, hbodies⟩ := hrest
      have hbody := body_inj (hds e (by simp)) hd function_of_head?_codeOf hafter hbodies
      have hsame : e = d := by
        cases e
        cases d
        simp_all
      simp [hsame]
    · rw [hpc, Program.getElem?_body, List.getElem?_append_left hi] at hentry
      exact absurd (List.mem_of_getElem? hentry) (hds e (by simp) _ _)
  · intro hd
    obtain ⟨before, after, rfl⟩ := List.append_of_mem hd
    refine ⟨codeOf before, codeOf after, ?_, hds d hd, function_of_head?_codeOf⟩
    rw [codeOf_append, codeOf_cons, List.append_assoc]

namespace Program

variable {before after : List Definition} {d : Definition} {name : String} {pc i : Nat}
  {code : List Instruction}

/-! ## Names -/

theorem definesAt_codeOf {ds : List Definition} (hd : ∀ d ∈ ds, d.Whole) :
    DefinesAt (codeOf ds) name pc ↔
      ∃ before d after, ds = before ++ d :: after ∧ d.name = name ∧ pc = (codeOf before).length := by
  constructor
  · intro h
    obtain ⟨before, d, after, rfl, hpc⟩ := exists_definition h.lt
    obtain ⟨n, h⟩ := h
    rcases hpc with rfl | ⟨i, hi, rfl⟩
    · rw [getElem?_entry, Option.some.injEq, Instruction.function.injEq] at h
      exact ⟨before, d, after, rfl, h.1, rfl⟩
    · rw [getElem?_body, List.getElem?_append_left hi] at h
      exact absurd (List.mem_of_getElem? h) (hd d (by simp) name n)
  · rintro ⟨before, d, after, rfl, rfl, rfl⟩
    exact ⟨d.localCount, getElem?_entry⟩

/-- A definition that does not come later is the same one or comes before. -/
theorem same_or_before {before' after' : List Definition} {d' : Definition}
    (heq : before ++ d :: after = before' ++ d' :: after') (hne : d' ∉ after) :
    (before' = before ∧ d' = d) ∨
      (codeOf before').length + d'.code.length ≤ (codeOf before).length := by
  rcases List.append_eq_append_iff.1 heq with ⟨c, rfl, hc⟩ | ⟨c, rfl, hc⟩
  · cases c with
    | nil =>
      obtain ⟨rfl, -⟩ : d = d' ∧ after = after' := by simpa using hc
      exact .inl ⟨by simp, rfl⟩
    | cons e c =>
      obtain ⟨rfl, rfl⟩ : d = e ∧ after = c ++ d' :: after' := by simpa using hc
      exact absurd (by simp) hne
  · cases c with
    | nil =>
      obtain ⟨rfl, -⟩ : d' = d ∧ after' = after := by simpa using hc
      exact .inl ⟨by simp, rfl⟩
    | cons e c =>
      obtain ⟨rfl, -⟩ : d' = e ∧ after' = c ++ d :: after := by simpa using hc
      refine .inr ?_
      rw [codeOf_append, codeOf_cons, List.length_append, List.length_append]
      omega

/-- A name leads to the last definition that has it. -/
theorem functions_of_last (hd : ∀ d' ∈ before ++ d :: after, d'.Whole)
    (hlast : ∀ d' ∈ after, d'.name ≠ d.name) :
    (ofInstructions (codeOf (before ++ d :: after))).functions[d.name]? =
      some (codeOf before).length := by
  refine functions_eq_some.2 ⟨⟨d.localCount, getElem?_entry⟩, fun k hk => ?_⟩
  obtain ⟨before', d', after', heq, hname, rfl⟩ := (definesAt_codeOf hd).1 hk
  rcases same_or_before heq fun hmem => hlast d' hmem hname with ⟨rfl, -⟩ | hle
  · exact Nat.le_refl _
  · exact Nat.le_trans (Nat.le_add_right _ _) hle

/-- And that is the only one it leads to. -/
theorem exists_last_of_functions {ds : List Definition} (hd : ∀ d ∈ ds, d.Whole)
    (h : (ofInstructions (codeOf ds)).functions[name]? = some pc) :
    ∃ before d after, ds = before ++ d :: after ∧ d.name = name ∧ pc = (codeOf before).length ∧
      ∀ d' ∈ after, d'.name ≠ name := by
  obtain ⟨hdef, hlast⟩ := functions_eq_some.1 h
  obtain ⟨before, d, after, rfl, hname, rfl⟩ := (definesAt_codeOf hd).1 hdef
  refine ⟨before, d, after, rfl, hname, rfl, fun d' hd' hname' => ?_⟩
  obtain ⟨mid, after', rfl⟩ := List.append_of_mem hd'
  have hle := hlast (codeOf (before ++ d :: mid)).length ((definesAt_codeOf hd).2
    ⟨before ++ d :: mid, d', after', by simp, hname', rfl⟩)
  rw [codeOf_append, codeOf_cons, List.length_append, List.length_append,
    Definition.length_code] at hle
  omega

/-! ## Labels -/

/-- A label of the last definition of a name leads into that definition. -/
theorem exists_label_of_last (hd : ∀ d' ∈ before ++ d :: after, d'.Whole)
    (hlast : ∀ d' ∈ after, d'.name ≠ d.name) (hi : d.body[i]? = some (.label name)) :
    ∃ j ≥ i, d.body[j]? = some (.label name) ∧
      (ofInstructions (codeOf (before ++ d :: after))).labels[(d.name, name)]? =
        some ((codeOf before).length + 1 + j) := by
  have hlt := (List.getElem?_eq_some_iff.1 hi).1
  have hstands : LabelsAt (codeOf (before ++ d :: after)) d.name name
      ((codeOf before).length + 1 + i) := by
    refine ⟨?_, functionAt_body (hd d (by simp)) (Nat.le_of_lt hlt)⟩
    rw [getElem?_body, List.getElem?_append_left hlt, hi]
  obtain ⟨q, hq, hlabel⟩ := exists_label hstands
  obtain ⟨⟨hcode, hfunction⟩, -⟩ := labels_eq_some.1 hlabel
  obtain ⟨before', d', after', heq, rfl | ⟨j, hj, rfl⟩⟩ :=
    exists_definition (List.getElem?_eq_some_iff.1 hcode).1
  · rw [heq, getElem?_entry] at hcode
    simp at hcode
  · have hd' : d' ∈ before ++ d :: after := by simp [heq]
    rw [heq, functionAt_body (hd d' hd') (Nat.le_of_lt hj)] at hfunction
    rcases same_or_before heq fun hmem => hlast d' hmem hfunction with ⟨rfl, rfl⟩ | hle
    · rw [heq, getElem?_body, List.getElem?_append_left hj] at hcode
      exact ⟨j, by omega, hcode, hlabel⟩
    · rw [Definition.length_code] at hle
      omega

/-- A label that the body has but once is found where it is. -/
theorem label_of_last (hd : ∀ d' ∈ before ++ d :: after, d'.Whole)
    (hlast : ∀ d' ∈ after, d'.name ≠ d.name) (hi : d.body[i]? = some (.label name))
    (honce : ∀ j, d.body[j]? = some (.label name) → j = i) :
    (ofInstructions (codeOf (before ++ d :: after))).labels[(d.name, name)]? =
      some ((codeOf before).length + 1 + i) := by
  obtain ⟨j, -, hj, hlabel⟩ := exists_label_of_last hd hlast hi
  rwa [honce j hj] at hlabel

end Program

end Jack.Machine

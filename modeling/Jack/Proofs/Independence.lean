import Jack.Proofs.ClassCode
import Jack.Proofs.LineByLine
import Jack.Proofs.Reference
import Jack.Proofs.Unambiguous

/-!
# Subroutines compile independently

The code of a phrase depends on the statements before it by the numbers of its labels only: behind
some more `if` and `while` statements it is the same code renumbered (`Block.renumber_code`). And
what a subroutine may name depends on the declarations of its class, not on other subroutines. So a
class compiles just when each of its subroutines does with these declarations alone, and its code is
then theirs, one after the other and renumbered (`compileClass_separately`).
-/

namespace Jack

open Syntax Compiler

/-! ## Renumbering -/

/-- The label with its number raised, for an `if` statement by one amount and for a `while`
statement by another. -/
def renumberLabel (ifs whiles : Nat) (name : String) : String :=
  let stem := String.ofList (name.toList.takeWhile (!·.isDigit))
  let number := Nat.ofDigitChars 10 (name.toList.dropWhile (!·.isDigit)) 0
  if stem = "IF_FALSE" ∨ stem = "IF_END" then stem ++ (number + ifs).repr
  else if stem = "WHILE_EXP" ∨ stem = "WHILE_END" then stem ++ (number + whiles).repr
  else name

def Instruction.renumber (ifs whiles : Nat) : Instruction → Instruction
  | .label name => .label (renumberLabel ifs whiles name)
  | .goto name => .goto (renumberLabel ifs whiles name)
  | .ifGoto name => .ifGoto (renumberLabel ifs whiles name)
  | i => i

/-- The code with the numbers of its labels raised. -/
def renumber (ifs whiles : Nat) (code : List Instruction) : List Instruction :=
  code.map (·.renumber ifs whiles)

section Renumber

variable {ifs whiles : Nat} {code code' condition : List Instruction}

theorem renumberLabel_append {stem : String} (hstem : ∀ c ∈ stem.toList, c.isDigit = false)
    (n : Nat) :
    renumberLabel ifs whiles (stem ++ n.repr) =
      if stem = "IF_FALSE" ∨ stem = "IF_END" then stem ++ (n + ifs).repr
      else if stem = "WHILE_EXP" ∨ stem = "WHILE_END" then stem ++ (n + whiles).repr
      else stem ++ n.repr := by
  have hdigits : ∀ c ∈ n.repr.toList.head?, (!c.isDigit) = false := fun c hc => by
    simp [Text.isDigit_of_mem_repr (List.mem_of_mem_head? hc)]
  obtain ⟨htake, hdrop⟩ := span_append (p := (!·.isDigit)) stem.toList n.repr.toList
    (fun c hc => by simp [hstem c hc]) hdigits
  simp only [renumberLabel, String.toList_append, htake, hdrop, String.ofList_toList,
    Text.ofDigitChars_repr]

def LabelSort.stem : LabelSort → String
  | otherwise => "IF_FALSE"
  | branchDone => "IF_END"
  | again => "WHILE_EXP"
  | loopDone => "WHILE_END"

theorem LabelSort.isDigit_stem (sort : LabelSort) : ∀ c ∈ sort.stem.toList, c.isDigit = false := by
  cases sort <;> simp [stem]

theorem LabelSort.label_eq (sort : LabelSort) (n : Nat) : sort.label n = sort.stem ++ n.repr := by
  cases sort <;> rfl

/-- By how much the number of a label is raised. -/
def LabelSort.raise (ifs whiles : Nat) : LabelSort → Nat
  | otherwise | branchDone => ifs
  | again | loopDone => whiles

theorem renumberLabel_label (sort : LabelSort) (n : Nat) :
    renumberLabel ifs whiles (sort.label n) = sort.label (n + sort.raise ifs whiles) := by
  rw [sort.label_eq, renumberLabel_append sort.isDigit_stem, sort.label_eq]
  cases sort <;> simp [LabelSort.stem, LabelSort.raise]

theorem renumber_append :
    renumber ifs whiles (code ++ code') = renumber ifs whiles code ++ renumber ifs whiles code' :=
  List.map_append

/-- Code without labels and jumps is left as it is. -/
theorem Bare.renumber (h : Bare code) : renumber ifs whiles code = code := by
  have hsame : ∀ i ∈ code, i.renumber ifs whiles = i := fun i hi => by
    obtain ⟨hlabel, htarget⟩ := h i hi
    cases i <;> first | rfl | simp [Instruction.label?, Instruction.target?] at hlabel htarget
  exact (List.map_congr_left hsame).trans (List.map_id' _)

/-- Code with labels of no statement has none. -/
theorem Labelled.bare {i w : Nat} (h : Labelled code i 0 w 0) : Bare code := by
  have hlabels : labelsOf code = [] := h.labels.eq_nil
  have htargets : targetsOf code = [] := h.targets.eq_nil
  intro j hj
  exact ⟨List.filterMap_eq_nil_iff.1 hlabels j hj, List.filterMap_eq_nil_iff.1 htargets j hj⟩

theorem renumber_ifCode (i : Nat) :
    renumber ifs whiles (ifCode (.numbered i) condition code code') =
      ifCode (.numbered (i + ifs)) (renumber ifs whiles condition) (renumber ifs whiles code)
        (renumber ifs whiles code') := by
  have hotherwise := @renumberLabel_label ifs whiles .otherwise i
  have hdone := @renumberLabel_label ifs whiles .branchDone i
  simp only [LabelSort.label, LabelSort.raise] at hotherwise hdone
  simp [ifCode, renumber, Instruction.renumber, hotherwise, hdone]

theorem renumber_whileCode (w : Nat) :
    renumber ifs whiles (whileCode (.numbered w) condition code) =
      whileCode (.numbered (w + whiles)) (renumber ifs whiles condition)
        (renumber ifs whiles code) := by
  have hagain := @renumberLabel_label ifs whiles .again w
  have hdone := @renumberLabel_label ifs whiles .loopDone w
  simp only [LabelSort.label, LabelSort.raise] at hagain hdone
  simp [whileCode, renumber, Instruction.renumber, hagain, hdone]

end Renumber

namespace Syntax

variable {b : Bindings} {ifs whiles : Nat}

mutual

theorem Statement.renumber_code : ∀ (st : Statement) (i w : Nat),
    renumber ifs whiles (st.code b i w) = st.code b (i + ifs) (w + whiles)
  | .assign name value, i, w => ((Statement.assign name value).labelled i w).bare.renumber
  | .assignElement array index value, i, w =>
    ((Statement.assignElement array index value).labelled i w).bare.renumber
  | .conditional condition body, i, w => by
    rw [Statement.code, renumber_ifCode, condition.bare.renumber, body.renumber_code (i + 1) w,
      Nat.add_right_comm i 1]
    rfl
  | .alternative condition body otherwise, i, w => by
    rw [Statement.code, renumber_ifCode, condition.bare.renumber, body.renumber_code (i + 1) w,
      otherwise.renumber_code (i + 1 + body.ifs) (w + body.whiles), Nat.add_right_comm _ body.ifs,
      Nat.add_right_comm i 1, Nat.add_right_comm w]
    rfl
  | .loop condition body, i, w => by
    rw [Statement.code, renumber_whileCode, condition.bare.renumber, body.renumber_code i (w + 1),
      Nat.add_right_comm w 1]
    rfl
  | .call c, i, w => ((Statement.call c).labelled i w).bare.renumber
  | .giveBack none, i, w => ((Statement.giveBack none).labelled i w).bare.renumber
  | .giveBack (some value), i, w => ((Statement.giveBack (some value)).labelled i w).bare.renumber

/-- Behind more statements the code of a block is the same, but for the numbers of its labels. -/
theorem Block.renumber_code : ∀ (body : Block) (i w : Nat),
    renumber ifs whiles (body.code b i w) = body.code b (i + ifs) (w + whiles)
  | .nil, i, w => rfl
  | .cons first rest, i, w => by
    rw [Block.code, renumber_append, first.renumber_code i w,
      rest.renumber_code (i + first.ifs) (w + first.whiles), Nat.add_right_comm i,
      Nat.add_right_comm w]
    rfl

end

theorem SubroutineDeclaration.renumber_code (k : ClassDeclaration) (d : SubroutineDeclaration)
    (i w : Nat) : renumber ifs whiles (d.code k i w) = d.code k (i + ifs) (w + whiles) := by
  rw [SubroutineDeclaration.code, List.cons_append, renumber, List.map_cons, ← renumber,
    renumber_append, (bare_bindObject _ _).renumber, d.body.renumber_code]
  rfl

/-! ## Classes -/

/-- The class with one subroutine only. -/
def ClassDeclaration.only (k : ClassDeclaration) (d : SubroutineDeclaration) : ClassDeclaration :=
  { k with subroutines := [d] }

theorem ClassDeclaration.code_only (k : ClassDeclaration) (d : SubroutineDeclaration) :
    (k.only d).code = d.code k 0 0 := List.append_nil _

/-- No subroutine matters to the rules for another. -/
theorem ClassDeclaration.scoped_iff_only {k : ClassDeclaration} (h : k.subroutines ≠ []) :
    k.Scoped ↔ ∀ d ∈ k.subroutines, (k.only d).Scoped := by
  constructor
  · rintro ⟨honce, hsubroutines⟩ d hd
    refine ⟨honce, fun d' hd' => ?_⟩
    obtain rfl := List.mem_singleton.1 hd'
    exact hsubroutines d' hd
  · intro hall
    obtain ⟨d, hd⟩ := List.exists_mem_of_ne_nil _ h
    exact ⟨(hall d hd).names_once, fun d hd => (hall d hd).subroutines d List.mem_cons_self⟩

/-- The codes of subroutines behind so many `if` and `while` statements, one after the other, each
renumbered by the statements before it. -/
def joinCode (ifs whiles : Nat) : List SubroutineDeclaration → List (List Instruction) →
    List Instruction
  | d :: ds, code :: codes =>
    renumber ifs whiles code ++ joinCode (ifs + d.body.ifs) (whiles + d.body.whiles) ds codes
  | _, _ => []

theorem joinCode_only (k : ClassDeclaration) (ds : List SubroutineDeclaration) (i w : Nat) :
    joinCode i w ds (ds.map fun d => (k.only d).code) = subroutinesCode k i w ds := by
  induction ds generalizing i w with
  | nil => rfl
  | cons d ds ih =>
    rw [List.map_cons, joinCode, ih, k.code_only, d.renumber_code, Nat.zero_add, Nat.zero_add,
      subroutinesCode]

end Syntax

/-! ## Compilations -/

/-- The tokens of the source are those of the class. -/
def Source.Writes (source : Source) (k : ClassDeclaration) : Prop :=
  source.Decodes ∧ k.tokens = source.kinds

instance (source : Source) (k : ClassDeclaration) : Decidable (source.Writes k) :=
  inferInstanceAs (Decidable (source.Decodes ∧ k.tokens = source.kinds))

namespace Compiler

variable {source : Source} {k : ClassDeclaration}

/-- What a class compiles to that has been written down. -/
theorem compileClass_of_writes (h : source.Writes k) {code : List Instruction} :
    compileClass source = .ok code ↔ k.Scoped ∧ code = k.code := by
  constructor
  · intro hcode
    obtain ⟨-, k', hk', hscoped, rfl⟩ := exists_tree_of_compileClass hcode
    obtain rfl : k = k' := ClassDeclaration.tokens_injective (h.2.trans hk'.symm)
    exact ⟨hscoped, rfl⟩
  · rintro ⟨hscoped, rfl⟩
    exact compileClass_of_tree h.1 h.2 hscoped

section Parts

variable {parts : List Source} {ds : List SubroutineDeclaration}

theorem compiles_parts_iff (hparts : List.Forall₂ (fun part d => part.Writes (k.only d)) parts ds) :
    (∀ part ∈ parts, ∃ code, compileClass part = .ok code) ↔ ∀ d ∈ ds, (k.only d).Scoped := by
  induction hparts with
  | nil => simp
  | @cons part d parts ds hpart _ ih =>
    have hfirst : (∃ code, compileClass part = .ok code) ↔ (k.only d).Scoped := by
      simp only [compileClass_of_writes hpart, exists_and_left, exists_eq, and_true]
    rw [List.forall_mem_cons, List.forall_mem_cons, hfirst, ih]

theorem codes_of_parts {codes : List (List Instruction)}
    (hparts : List.Forall₂ (fun part d => part.Writes (k.only d)) parts ds)
    (hcodes : List.Forall₂ (fun part code => compileClass part = .ok code) parts codes) :
    (∀ d ∈ ds, (k.only d).Scoped) ∧ codes = ds.map fun d => (k.only d).code := by
  induction hparts generalizing codes with
  | nil =>
    cases hcodes
    exact ⟨by simp, rfl⟩
  | cons hpart _ ih =>
    obtain _ | ⟨hcode, hcodes⟩ := hcodes
    obtain ⟨hfirst, rfl⟩ := (compileClass_of_writes hpart).1 hcode
    obtain ⟨hrest, rfl⟩ := ih hcodes
    exact ⟨List.forall_mem_cons.2 ⟨hfirst, hrest⟩, rfl⟩

end Parts

/-- A class compiles if and only if it does with each of its subroutines alone, and its code is then
the code of these classes, one after the other, but for the numbers of the labels. -/
theorem compileClass_separately {whole : Source} {parts : List Source} (hne : k.subroutines ≠ [])
    (hwhole : whole.Writes k)
    (hparts : List.Forall₂ (fun part d => part.Writes (k.only d)) parts k.subroutines) :
    ((∃ code, compileClass whole = .ok code) ↔
      ∀ part ∈ parts, ∃ code, compileClass part = .ok code) ∧
    ∀ codes, List.Forall₂ (fun part code => compileClass part = .ok code) parts codes →
      compileClass whole = .ok (joinCode 0 0 k.subroutines codes) := by
  refine ⟨?_, fun codes hcodes => ?_⟩
  · rw [compiles_parts_iff hparts, ← k.scoped_iff_only hne]
    simp only [compileClass_of_writes hwhole, exists_and_left, exists_eq, and_true]
  · obtain ⟨hscoped, rfl⟩ := codes_of_parts hparts hcodes
    have hwholeScoped : k.Scoped := (k.scoped_iff_only hne).2 hscoped
    exact (compileClass_of_writes hwhole).2 ⟨hwholeScoped, joinCode_only k _ 0 0⟩

def waits : SubroutineDeclaration where
  kind := .function
  returnType := none
  name := "waits"
  parameters := []
  locals := []
  body := .cons (.loop (.term .true) (.cons (.conditional (.term (.variable "n"))
    (.cons (.giveBack none) .nil)) .nil)) .nil

/-- The parameter has the name of a static. -/
def picks : SubroutineDeclaration where
  kind := .method
  returnType := some .int
  name := "picks"
  parameters := [⟨.int, "n"⟩]
  locals := []
  body := .cons (.conditional (.term (.variable "n"))
    (.cons (.giveBack (some (.term (.variable "n")))) .nil)) .nil

def pairClass : ClassDeclaration where
  name := "A"
  declarations := [⟨.ofClass, ⟨.int, "n", []⟩⟩]
  subroutines := [waits, picks]

def waitsText : String :=
  "function void waits() \x7b while (true) \x7b if (n) \x7b return; \x7d \x7d \x7d "

def picksText : String := "method int picks(int n) \x7b if (n) \x7b return n; \x7d \x7d "

/-- The text of a class with these subroutines. -/
def pairSource (subroutines : String) : Source :=
  .ofString ("class A \x7b static int n; " ++ subroutines ++ "\x7d")

/-- The branch of the second subroutine is numbered behind that of the first, and nothing else is
different. -/
theorem compileClass_separately_pair :
    compileClass (pairSource waitsText) = .ok (pairClass.only waits).code ∧
      compileClass (pairSource picksText) = .ok (pairClass.only picks).code ∧
      compileClass (pairSource (waitsText ++ picksText)) =
        .ok ((pairClass.only waits).code ++ renumber 1 1 (pairClass.only picks).code) := by
  have hwhole : (pairSource (waitsText ++ picksText)).Writes pairClass := by decide +kernel
  have hwaits : (pairSource waitsText).Writes (pairClass.only waits) := by decide +kernel
  have hpicks : (pairSource picksText).Writes (pairClass.only picks) := by decide +kernel
  have hfirst : compileClass (pairSource waitsText) = .ok (pairClass.only waits).code := by
    decide +kernel
  have hsecond : compileClass (pairSource picksText) = .ok (pairClass.only picks).code := by
    decide +kernel
  refine ⟨hfirst, hsecond, ?_⟩
  have hjoined := (compileClass_separately (k := pairClass) (by simp [pairClass]) hwhole
    (.cons hwaits (.cons hpicks .nil))).2 _ (.cons hfirst (.cons hsecond .nil))
  have hcode : joinCode 0 0 pairClass.subroutines
      [(pairClass.only waits).code, (pairClass.only picks).code] =
        (pairClass.only waits).code ++ renumber 1 1 (pairClass.only picks).code := by decide +kernel
  rwa [hcode] at hjoined

end Compiler

end Jack

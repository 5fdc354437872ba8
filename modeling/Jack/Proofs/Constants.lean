import Jack.Proofs.Loaded
import Jack.Proofs.Pieces

/-!
# The constants of a class

The constants that code pushes come from its tokens, in their order
(`ClassDeclaration.constantsOf_code`): an integer is pushed as it is, a string as its length and its
characters, and a constructor pushes the number of fields. Integers and characters are bounded where
they are read, so all constants can be loaded just when the strings are short enough and the fields,
if there is a constructor, are few enough (`loadable_iff`). Neither is checked: a class with a string
of 32768 characters compiles, and cannot be loaded (`not_loadable_longer`).
-/

namespace Jack

open Token (Kind)

/-- The constant that an instruction pushes. -/
def Instruction.constant? : Instruction → Option Nat
  | .push .constant n => some n
  | _ => none

namespace Instruction

@[simp] theorem constant?_constant (n : Nat) : (push .constant n).constant? = some n := rfl

@[simp] theorem constant?_push {segment : Segment} (h : segment ≠ .constant) (n : Nat) :
    (push segment n).constant? = none := by
  cases segment <;> first | rfl | exact absurd rfl h

@[simp] theorem constant?_pop (segment : Segment) (n : Nat) :
    (pop segment n).constant? = none := rfl

@[simp] theorem constant?_command (action : Command) : (command action).constant? = none := rfl

@[simp] theorem constant?_label (name : String) : (label name).constant? = none := rfl

@[simp] theorem constant?_goto (name : String) : (goto name).constant? = none := rfl

@[simp] theorem constant?_ifGoto (name : String) : (ifGoto name).constant? = none := rfl

@[simp] theorem constant?_function (name : String) (n : Nat) :
    (function name n).constant? = none := rfl

@[simp] theorem constant?_call (name : String) (n : Nat) : (call name n).constant? = none := rfl

end Instruction

/-- The constants that code pushes, in order. -/
def constantsOf (code : List Instruction) : List Nat := code.filterMap Instruction.constant?

section constantsOf

variable {i : Instruction} {code : List Instruction}

@[simp] theorem constantsOf_nil : constantsOf [] = [] := rfl

@[simp] theorem constantsOf_append (code code' : List Instruction) :
    constantsOf (code ++ code') = constantsOf code ++ constantsOf code' := List.filterMap_append

@[simp] theorem constantsOf_cons (i : Instruction) (code : List Instruction) :
    constantsOf (i :: code) = i.constant?.toList ++ constantsOf code := by
  rw [constantsOf, List.filterMap_cons]
  cases i.constant? <;> rfl

theorem mem_constantsOf {n : Nat} : n ∈ constantsOf code ↔ .push .constant n ∈ code := by
  simp only [constantsOf, List.mem_filterMap]
  constructor
  · rintro ⟨i, hi, hn⟩
    unfold Instruction.constant? at hn
    split at hn <;> simp only [Option.some.injEq, reduceCtorEq] at hn
    exact hn ▸ hi
  · exact fun h => ⟨_, h, rfl⟩

end constantsOf

/-- The constants that a token stands for, in a class with so many fields. -/
def Token.Kind.constants (fields : Nat) : Kind → List Nat
  | .integer value => [value]
  | .string content => content.toList.length :: content.toList.map Char.toNat
  | .keyword .trueKeyword => [1]
  | .keyword .falseKeyword | .keyword .nullKeyword => [0]
  | .keyword .constructorKeyword => [fields]
  | _ => []

section constants

variable (fields : Nat)

@[simp] theorem constants_symbol (c : Char) : (Kind.symbol c).constants fields = [] := rfl

@[simp] theorem constants_identifier (name : String) :
    (Kind.identifier name).constants fields = [] := rfl

@[simp] theorem constants_integer (value : Nat) :
    (Kind.integer value).constants fields = [value] := rfl

@[simp] theorem constants_keyword {k : Keyword}
    (h : k ∉ [.trueKeyword, .falseKeyword, .nullKeyword, .constructorKeyword]) :
    (Kind.keyword k).constants fields = [] := by
  cases k <;> first | rfl | simp at h

end constants

namespace Syntax

open Compiler

variable {b : Bindings} (fields : Nat)

@[simp] theorem constant?_symbol (s : Symbol) : s.push.constant? = none := by
  cases h : s.kind <;> simp [Symbol.push, Symbol.Kind.segment, h]

@[simp] theorem constant?_routine (r : Routine) : r.call.constant? = none := rfl

@[simp] theorem constant?_operator (op : Operator) : op.instruction.constant? = none := by
  cases op <;> rfl

@[simp] theorem constant?_unary (op : UnaryOperator) : op.instruction.constant? = none := by
  cases op <;> rfl

@[simp] theorem constants_unary (op : UnaryOperator) : op.token.constants fields = [] := by
  cases op <;> rfl

@[simp] theorem constant?_this (b : Bindings) : b.this.constant? = none := by
  unfold Bindings.this
  split <;> rfl

@[simp] theorem constantsOf_read (b : Bindings) (name : String) : constantsOf (b.read name) = [] := by
  unfold Bindings.read
  cases b.resolve name <;> simp

@[simp] theorem constantsOf_write (b : Bindings) (name : String) :
    constantsOf (b.write name) = [] := by
  unfold Bindings.write
  cases b.resolve name <;> simp [Symbol.pop]

theorem constantsOf_stringCode (content : List Char) :
    constantsOf (stringCode content) = content.length :: content.map Char.toNat := by
  have happend : constantsOf (content.flatMap appendCode) = content.map Char.toNat := by
    induction content with
    | nil => rfl
    | cons c content ih => simp [appendCode, ih]
  simp [stringCode, happend]

mutual

theorem Term.constantsOf_code : ∀ t : Term,
    constantsOf (t.code b) = t.tokens.flatMap (·.constants fields)
  | .integer _ | .true | .false | .null => rfl
  | .string content => by
    rw [Term.code, constantsOf_stringCode]
    simp [Term.tokens, Kind.constants]
  | .this => by simp [Term.code, Term.tokens]
  | .group e => by simp [Term.code, Term.tokens, e.constantsOf_code]
  | .unary op t => by simp [Term.code, Term.tokens, t.constantsOf_code]
  | .variable name => by simp [Term.code, Term.tokens]
  | .element array index => by
    simp [Term.code, Term.tokens, loadElement, index.constantsOf_code]
  | .call c => c.constantsOf_code

theorem Expression.constantsOf_code : ∀ e : Expression,
    constantsOf (e.code b) = e.tokens.flatMap (·.constants fields)
  | .term t => t.constantsOf_code
  | .operation left op right => by
    simp [Expression.code, Expression.tokens, left.constantsOf_code,
      right.constantsOf_code]

theorem Call.constantsOf_code : ∀ c : Call,
    constantsOf (c.code b) = c.tokens.flatMap (·.constants fields)
  | .own name arguments => by
    simp [Call.code, Call.tokens, arguments.constantsOf_code]
  | .qualified qualifier name arguments => by
    cases h : b.resolve qualifier <;>
      simp [Call.code, Call.tokens, h, arguments.constantsOf_code]

theorem Arguments.constantsOf_code : ∀ a : Arguments,
    constantsOf (a.code b) = a.tokens.flatMap (·.constants fields)
  | .nil => rfl
  | .cons first .nil => by
    simp [Arguments.code, Arguments.tokens, first.constantsOf_code]
  | .cons first (.cons second rest) => by
    rw [Arguments.code, Arguments.tokens, constantsOf_append, first.constantsOf_code,
      (Arguments.cons second rest).constantsOf_code]
    · simp
    · simp

end

mutual

theorem Statement.constantsOf_code : ∀ (st : Statement) {i w : Nat},
    constantsOf (st.code b i w) = st.tokens.flatMap (·.constants fields)
  | .assign name value, _, _ => by
    simp [Statement.code, Statement.tokens, value.constantsOf_code fields]
  | .assignElement array index value, _, _ => by
    simp [Statement.code, Statement.tokens, storeElement, index.constantsOf_code fields,
      value.constantsOf_code fields]
  | .conditional condition body, i, w => by
    simp [Statement.code, Statement.tokens, ifCode, condition.constantsOf_code fields,
      body.constantsOf_code]
  | .alternative condition body otherwise, i, w => by
    simp [Statement.code, Statement.tokens, ifCode, condition.constantsOf_code fields,
      body.constantsOf_code, otherwise.constantsOf_code]
  | .loop condition body, i, w => by
    simp [Statement.code, Statement.tokens, whileCode, condition.constantsOf_code fields,
      body.constantsOf_code]
  | .call c, _, _ => by
    simp [Statement.code, Statement.tokens, c.constantsOf_code fields]
  | .giveBack none, _, _ => rfl
  | .giveBack (some value), _, _ => by
    simp [Statement.code, Statement.tokens, value.constantsOf_code fields]

theorem Block.constantsOf_code : ∀ (body : Block) {i w : Nat},
    constantsOf (body.code b i w) = body.tokens.flatMap (·.constants fields)
  | .nil, _, _ => rfl
  | .cons first rest, i, w => by
    simp [Block.code, Block.tokens, first.constantsOf_code, rest.constantsOf_code]

end

/-! ## Declarations -/

@[simp] theorem constants_type (type : VariableType) : type.token.constants fields = [] := by
  cases type <;> rfl

theorem constants_variables (v : Variables) : v.tokens.flatMap (·.constants fields) = [] := by
  simp only [Variables.tokens, List.flatMap_append, List.flatMap_cons, List.flatMap_assoc]
  simp

theorem constants_parameters (ps : List Parameter) :
    (parameterTokens ps).flatMap (·.constants fields) = [] := by
  cases ps <;> simp [parameterTokens, Parameter.tokens, List.flatMap_assoc]

theorem constants_locals (vs : List Variables) :
    (vs.flatMap fun v => .keyword .varKeyword :: v.tokens).flatMap (·.constants fields) = [] := by
  simp [List.flatMap_assoc, constants_variables]

theorem constants_declarations (vs : List ClassVariables) :
    (vs.flatMap ClassVariables.tokens).flatMap (·.constants fields) = [] := by
  have hkeyword : ∀ o : Ownership, (Kind.keyword o.keyword).constants fields = [] := fun o => by
    cases o <;> rfl
  simp [List.flatMap_assoc, ClassVariables.tokens, constants_variables, hkeyword]

def ClassDeclaration.fieldCount (k : ClassDeclaration) : Nat :=
  k.declared.countP (·.kind = .field)

variable {k : ClassDeclaration}

theorem SubroutineDeclaration.constantsOf_code (d : SubroutineDeclaration) (i w : Nat) :
    constantsOf (d.code k i w) = d.tokens.flatMap (·.constants k.fieldCount) := by
  have hobject : constantsOf (bindObject (k.declared.countP (·.kind = .field)) d.kind) =
      (kindToken d.kind).constants k.fieldCount := by
    cases d.kind <;> rfl
  have htype : Kind.constants k.fieldCount
      ((d.returnType.map VariableType.token).getD (.keyword .voidKeyword)) = [] := by
    cases d.returnType <;> simp
  have hbody := d.body.constantsOf_code (b := bindings k d) k.fieldCount (i := i) (w := w)
  simp [SubroutineDeclaration.code, SubroutineDeclaration.tokens, hobject, htype, hbody,
    constants_parameters, constants_locals]

theorem constantsOf_subroutinesCode (ds : List SubroutineDeclaration) (i w : Nat) :
    constantsOf (subroutinesCode k i w ds) =
      (ds.flatMap SubroutineDeclaration.tokens).flatMap (·.constants k.fieldCount) := by
  induction ds generalizing i w with
  | nil => rfl
  | cons d ds ih => simp [subroutinesCode, d.constantsOf_code, ih]

theorem ClassDeclaration.constantsOf_code (k : ClassDeclaration) :
    constantsOf k.code = k.tokens.flatMap (·.constants k.fieldCount) := by
  simp [ClassDeclaration.code, ClassDeclaration.tokens, constantsOf_subroutinesCode,
    constants_declarations]

/-- Integers and characters can be loaded; a length or a number of fields may be too large. -/
theorem loadable_constants {kind : Kind} (h : kind.Legal) :
    (∀ n ∈ kind.constants fields, n ≤ 32767) ↔
      (∀ content, kind = .string content → content.toList.length ≤ 32767) ∧
        (kind = .keyword .constructorKeyword → fields ≤ 32767) := by
  cases kind with
  | string content =>
    constructor
    · refine fun hn => ⟨?_, by simp⟩
      rintro _ ⟨⟩
      exact hn _ List.mem_cons_self
    · rintro ⟨hlength, -⟩ n hn
      rcases List.mem_cons.1 hn with rfl | hn
      · exact hlength content rfl
      · obtain ⟨c, hc, rfl⟩ := List.mem_map.1 hn
        exact h c hc
  | integer value =>
    have hvalue : value ≤ 32767 := h
    simpa using hvalue
  | keyword k => cases k <;> simp [Kind.constants]
  | identifier name => simp
  | symbol c => simp

end Syntax

open Syntax

/-! ## A class with one string -/

def quoteBefore : List Char := "class A \x7b function void f() \x7b do A.g(".toList

def quoteAfter : List Char := "); return; \x7d \x7d".toList

def quoteText (content : List Char) : List Char :=
  quoteBefore ++ ('"' :: content ++ '"' :: quoteAfter)

def quoteSubroutine (content : List Char) : SubroutineDeclaration where
  kind := .function
  returnType := none
  name := "f"
  parameters := []
  locals := []
  body := .cons (.call (.qualified "A" "g"
    (.cons (.term (.string (String.ofList content))) .nil))) (.cons (.giveBack none) .nil)

def quoteClass (content : List Char) : ClassDeclaration where
  name := "A"
  declarations := []
  subroutines := [quoteSubroutine content]

def quoteBeforeKinds : List Kind :=
  [.keyword .classKeyword, .identifier "A", .symbol '\x7b', .keyword .functionKeyword,
    .keyword .voidKeyword, .identifier "f", .symbol '(', .symbol ')', .symbol '\x7b',
    .keyword .doKeyword, .identifier "A", .symbol '.', .identifier "g", .symbol '(']

def quoteAfterKinds : List Kind :=
  [.symbol ')', .symbol ';', .keyword .returnKeyword, .symbol ';', .symbol '\x7d', .symbol '\x7d']

theorem kinds_quoteBefore : (WholeText.scan quoteBefore).1.map Prod.fst = quoteBeforeKinds := by
  decide +kernel

theorem kinds_quoteAfter : (WholeText.scan quoteAfter).1.map Prod.fst = quoteAfterKinds := by
  decide +kernel

theorem tokens_quoteClass (content : List Char) : (quoteClass content).tokens =
    quoteBeforeKinds ++ .string (String.ofList content) :: quoteAfterKinds := rfl

theorem string_mem_quoteClass {content : List Char} {written : String} :
    .string written ∈ (quoteClass content).tokens ↔ written = String.ofList content := by
  simp [tokens_quoteClass, quoteBeforeKinds, quoteAfterKinds]

theorem constructor_notMem_quoteClass (content : List Char) :
    .keyword .constructorKeyword ∉ (quoteClass content).tokens := by
  simp [tokens_quoteClass, quoteBeforeKinds, quoteAfterKinds]

theorem constantsOf_quoteClass (content : List Char) :
    constantsOf (quoteClass content).code = content.length :: content.map Char.toNat := by
  rw [ClassDeclaration.constantsOf_code, tokens_quoteClass]
  simp [Kind.constants, quoteBeforeKinds, quoteAfterKinds]

/-- Whatever the string is, the class compiles. -/
theorem quoteClass_compiles (content : List Char)
    (h : ∀ c ∈ content, c ≠ '"' ∧ c ≠ '\n' ∧ c.toNat ≤ Lexeme.maxConstant) :
    (quoteClass content).Compiles (.ofChars (quoteText content)) := by
  have hall : quoteBefore.all (fun c => c ≠ '/' && c ≠ '"') = true := by decide
  have hplain : ∀ c ∈ quoteBefore, c ≠ '/' ∧ c ≠ '"' := by simpa using hall
  have hsep : WholeText.Separate quoteBefore := by
    intro c hc
    obtain rfl : '(' = c := Option.some.inj hc
    rfl
  have hbefore : WholeText.scan quoteBefore = ((WholeText.scan quoteBefore).1, none) :=
    Prod.ext rfl (by decide +kernel)
  have hafter : (WholeText.scan quoteAfter).2 = none := by decide +kernel
  have hscan := WholeText.scan_append hplain hsep hbefore ('"' :: content ++ '"' :: quoteAfter)
  rw [WholeText.scan_string h, hafter] at hscan
  obtain ⟨hkinds, hstop⟩ := @kinds_of_scan (quoteText content) _ hscan
  rw [List.map_append, List.map_cons, kinds_quoteBefore, kinds_quoteAfter] at hkinds
  refine ⟨hstop, (tokens_quoteClass content).trans hkinds.symm, List.nodup_nil, ?_⟩
  intro d hd
  obtain rfl := List.mem_singleton.1 hd
  refine ⟨List.nodup_nil, fun name hname => (nomatch hname), fun name hname => ?_⟩
  obtain rfl : name = "A" := List.mem_singleton.1 hname
  exact fun s hs => nomatch hs

theorem replicate_compiles (n : Nat) : (quoteClass (List.replicate n 'a')).Compiles
    (.ofChars (quoteText (List.replicate n 'a'))) := by
  refine quoteClass_compiles _ fun c hc => ?_
  rw [List.eq_of_mem_replicate hc]
  decide

/-! ## Loading -/

/-- All constants of the code can be loaded. -/
def Loadable (code : List Instruction) : Prop :=
  ∀ n, .push .constant n ∈ code → n ≤ 32767

/-- The constants that a class pushes are those of its tokens, and all of them can be loaded just
when its strings and, if it has a constructor, its fields are few enough. -/
theorem loadable_iff {source : Source} {code : List Instruction}
    (h : compileClass source = .ok code) :
    ∃ k : ClassDeclaration, k.Compiles source ∧ k.code = code ∧
      constantsOf code = source.kinds.flatMap (·.constants k.fieldCount) ∧
      (Loadable code ↔
        (∀ content, .string content ∈ source.kinds → content.toList.length ≤ 32767) ∧
        (.keyword .constructorKeyword ∈ source.kinds → k.fieldCount ≤ 32767)) := by
  obtain ⟨k, hk, rfl⟩ := exists_compiles_of_compileClass h
  have hconstants := k.constantsOf_code
  have hlegal := hk.legal
  rw [hk.tokens] at hconstants hlegal
  refine ⟨k, hk, rfl, hconstants, ?_⟩
  calc Loadable k.code
      ↔ ∀ kind ∈ source.kinds, ∀ n ∈ kind.constants k.fieldCount, n ≤ 32767 := by
        simp only [Loadable, ← mem_constantsOf, hconstants, List.mem_flatMap]
        grind
    _ ↔ ∀ kind ∈ source.kinds,
          (∀ content, kind = .string content → content.toList.length ≤ 32767) ∧
            (kind = .keyword .constructorKeyword → k.fieldCount ≤ 32767) :=
        forall₂_congr fun kind hmem => loadable_constants _ (hlegal kind hmem)
    _ ↔ _ := by grind

/-- A string of 32767 characters can be loaded. -/
theorem loadable_longest : Loadable (quoteClass (List.replicate 32767 'a')).code := by
  have hclass := replicate_compiles 32767
  obtain ⟨k, -, -, -, h⟩ := loadable_iff hclass.compileClass_eq
  rw [← hclass.tokens] at h
  refine h.2 ⟨fun content hmem => ?_, fun hmem => absurd hmem (constructor_notMem_quoteClass _)⟩
  rw [string_mem_quoteClass.1 hmem, String.toList_ofList, List.length_replicate]

/-- A string of 32768 characters compiles, but its length cannot be loaded. -/
theorem not_loadable_longer : ¬ ∀ (source : Source) (code : List Instruction),
    compileClass source = .ok code → Loadable code := by
  intro hall
  have hclass := replicate_compiles 32768
  have hload := hall _ _ hclass.compileClass_eq 32768 (mem_constantsOf.1 ?_)
  · exact absurd hload (by decide)
  · rw [constantsOf_quoteClass, List.length_replicate]
    exact List.mem_cons_self

end Jack

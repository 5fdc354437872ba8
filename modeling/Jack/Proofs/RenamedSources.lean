import Jack.Proofs.Independence
import Jack.Proofs.Renaming
import Jack.Proofs.Vocabulary
import Jack.Proofs.Writing

/-!
# Classes with renamed variables

The tokens of a renamed class are those of the class but for identifiers (`tokens_rename`), so they
can be written down as those of the class could. Any source that writes them compiles, and to the
same code (`compileClass_rename`).
-/

namespace Jack

open Syntax
open Token (Kind)

/-! ## Tokens of renamed classes -/

namespace Renaming

/-- The second token is the first one, or its identifier renamed. -/
inductive Respells (ρ : Renaming) : Kind → Kind → Prop
  | same (kind : Kind) : Respells ρ kind kind
  | identifier (name : String) : Respells ρ (.identifier name) (.identifier (ρ name))

variable {ρ : Renaming}

theorem respells_refl (kinds : List Kind) : List.Forall₂ ρ.Respells kinds kinds :=
  List.forall₂_same.2 fun kind _ => .same kind

end Renaming

namespace Syntax

variable (ρ : Renaming) (b : Bindings)

open List (Forall₂)
open Renaming (Respells respells_refl)

theorem respells_qualifier (name : String) :
    ρ.Respells (.identifier name) (.identifier (b.renameQualifier ρ name)) := by
  unfold Bindings.renameQualifier
  split
  · exact .identifier name
  · exact .same _

mutual

theorem Term.tokens_rename : ∀ t : Term, Forall₂ ρ.Respells t.tokens (t.rename ρ b).tokens
  | .integer _ | .string _ | .true | .false | .null | .this => respells_refl _
  | .group e => .cons (.same _) (List.rel_append e.tokens_rename (respells_refl _))
  | .unary _ t => .cons (.same _) t.tokens_rename
  | .variable name => .cons (.identifier name) .nil
  | .element array index => .cons (.identifier array)
    (.cons (.same _) (List.rel_append index.tokens_rename (respells_refl _)))
  | .call c => c.tokens_rename

theorem Expression.tokens_rename :
    ∀ e : Expression, Forall₂ ρ.Respells e.tokens (e.rename ρ b).tokens
  | .term t => t.tokens_rename
  | .operation left _ right =>
    List.rel_append left.tokens_rename (.cons (.same _) right.tokens_rename)

theorem Call.tokens_rename : ∀ c : Call, Forall₂ ρ.Respells c.tokens (c.rename ρ b).tokens
  | .own _ arguments => .cons (.same _) (.cons (.same _)
    (List.rel_append arguments.tokens_rename (respells_refl _)))
  | .qualified qualifier _ arguments => .cons (respells_qualifier ρ b qualifier) (.cons (.same _)
    (.cons (.same _) (.cons (.same _)
      (List.rel_append arguments.tokens_rename (respells_refl _)))))

theorem Arguments.tokens_rename :
    ∀ arguments : Arguments, Forall₂ ρ.Respells arguments.tokens (arguments.rename ρ b).tokens
  | .nil => .nil
  | .cons first .nil => first.tokens_rename
  | .cons first (.cons second rest) => List.rel_append first.tokens_rename
    (.cons (.same _) (Arguments.tokens_rename (.cons second rest)))

end

mutual

theorem Statement.tokens_rename :
    ∀ st : Statement, Forall₂ ρ.Respells st.tokens (st.rename ρ b).tokens
  | .assign name value => .cons (.same _) (.cons (.identifier name) (.cons (.same _)
    (List.rel_append (value.tokens_rename ρ b) (respells_refl _))))
  | .assignElement array index value => .cons (.same _) (.cons (.identifier array) (.cons (.same _)
    (List.rel_append (List.rel_append (index.tokens_rename ρ b)
      (.cons (.same _) (.cons (.same _) (value.tokens_rename ρ b)))) (respells_refl _))))
  | .conditional condition body => .cons (.same _) (.cons (.same _)
    (List.rel_append (List.rel_append (condition.tokens_rename ρ b)
      (.cons (.same _) (.cons (.same _) body.tokens_rename))) (respells_refl _)))
  | .alternative condition body otherwise => .cons (.same _) (.cons (.same _)
    (List.rel_append (List.rel_append (List.rel_append (condition.tokens_rename ρ b)
      (.cons (.same _) (.cons (.same _) body.tokens_rename)))
      (.cons (.same _) (.cons (.same _) (.cons (.same _) otherwise.tokens_rename))))
      (respells_refl _)))
  | .loop condition body => .cons (.same _) (.cons (.same _)
    (List.rel_append (List.rel_append (condition.tokens_rename ρ b)
      (.cons (.same _) (.cons (.same _) body.tokens_rename))) (respells_refl _)))
  | .call c => .cons (.same _) (List.rel_append (c.tokens_rename ρ b) (respells_refl _))
  | .giveBack none => respells_refl _
  | .giveBack (some value) =>
    .cons (.same _) (List.rel_append (value.tokens_rename ρ b) (respells_refl _))

theorem Block.tokens_rename :
    ∀ body : Block, Forall₂ ρ.Respells body.tokens (body.rename ρ b).tokens
  | .nil => .nil
  | .cons first rest => List.rel_append first.tokens_rename rest.tokens_rename

end

theorem tokens_flatMap_map {α : Type} {f : α → List Kind} {g : α → α}
    (h : ∀ a, Forall₂ ρ.Respells (f a) (f (g a))) (as : List α) :
    Forall₂ ρ.Respells (as.flatMap f) ((as.map g).flatMap f) := by
  induction as with
  | nil => exact .nil
  | cons a as ih => exact List.rel_append (h a) ih

theorem Variables.tokens_rename (v : Variables) :
    Forall₂ ρ.Respells v.tokens (v.rename ρ).tokens := by
  have hothers := tokens_flatMap_map ρ (f := fun name => [.symbol ',', .identifier name]) (g := ρ)
    (fun name => .cons (.same _) (.cons (.identifier name) .nil)) v.others
  exact .cons (.same _) (.cons (.identifier v.first) (List.rel_append hothers (respells_refl _)))

theorem parameterTokens_rename (ps : List Parameter) :
    Forall₂ ρ.Respells (parameterTokens ps) (parameterTokens (ps.map (·.rename ρ))) := by
  have htokens : ∀ p : Parameter, Forall₂ ρ.Respells p.tokens (p.rename ρ).tokens := fun p =>
    .cons (.same _) (.cons (.identifier p.name) .nil)
  cases ps with
  | nil => exact .nil
  | cons p ps =>
    exact List.rel_append (htokens p) (tokens_flatMap_map ρ (f := fun p => .symbol ',' :: p.tokens)
      (g := (·.rename ρ)) (fun p => .cons (.same _) (htokens p)) ps)

theorem SubroutineDeclaration.tokens_rename (d : SubroutineDeclaration) :
    Forall₂ ρ.Respells d.tokens (d.rename ρ b).tokens := by
  have hlocals := tokens_flatMap_map ρ (f := fun v => .keyword .varKeyword :: v.tokens)
    (fun v => .cons (.same _) (v.tokens_rename ρ)) d.locals
  have hparameters := parameterTokens_rename ρ d.parameters
  have hhead := List.rel_append hparameters (.cons (.same (.symbol ')'))
    (.cons (.same (.symbol '\x7b')) hlocals))
  exact .cons (.same _) (.cons (.same _) (.cons (.same _) (.cons (.same _)
    (List.rel_append (List.rel_append hhead (d.body.tokens_rename ρ b)) (respells_refl _)))))

/-- A renamed class is written as the class is, but for identifiers. -/
theorem ClassDeclaration.tokens_rename (k : ClassDeclaration) :
    Forall₂ ρ.Respells k.tokens (k.rename ρ).tokens := by
  have hdeclarations := tokens_flatMap_map ρ (f := ClassVariables.tokens) (g := (·.rename ρ))
    (fun v => .cons (.same _) (v.declaration.tokens_rename ρ)) k.declarations
  have hsubroutines := tokens_flatMap_map ρ (f := SubroutineDeclaration.tokens)
    (g := fun d => d.rename ρ (bindings k d)) (fun d => d.tokens_rename ρ (bindings k d))
    k.subroutines
  exact .cons (.same _) (.cons (.same _) (.cons (.same _)
    (List.rel_append (List.rel_append hdeclarations hsubroutines) (respells_refl _))))

/-! ## Names come from tokens -/

section Names

variable {k : ClassDeclaration}

theorem ClassDeclaration.identifier_mem {e : Declared} (h : e ∈ k.declared) :
    .identifier e.name ∈ k.tokens := by
  simp only [ClassDeclaration.declared, ClassVariables.declared, Variables.declared,
    List.mem_flatMap, List.mem_map] at h
  obtain ⟨v, hv, name, hname, rfl⟩ := h
  have hmem := Compiler.identifier_mem_variables hname
  simp only [ClassDeclaration.tokens, List.mem_append, List.mem_cons, List.mem_flatMap]
  exact .inl (.inl (.inr (.inr (.inr ⟨v, hv, List.mem_cons_of_mem _ hmem⟩))))

/-- What the class of a source declares are identifiers. -/
theorem ClassDeclaration.named_of_writes {source : Source} (h : source.Writes k) : k.Named := by
  have hname : ∀ {name}, .identifier name ∈ k.tokens → IsName name := by
    intro name hmem
    rw [h.2, Source.kinds, List.mem_map] at hmem
    obtain ⟨t, ht, hkind⟩ := hmem
    exact (TokenStream.isName_of_mem ht hkind).2
  exact ⟨fun e he => hname (identifier_mem he), fun d hd e he =>
    hname ((within_of_mem_subroutines hd).mem _ (Compiler.identifier_mem_tokens he))⟩

end Names

end Syntax

/-! ## Sources of renamed classes -/

theorem Renaming.Respells.writable {ρ : Renaming} {kind kind' : Kind} (h : ρ.Respells kind kind')
    (hlegal : kind.Legal) (hwritable : kind.Writable) : kind'.Writable := by
  cases h with
  | same => exact hwritable
  | identifier name => exact (ρ.isName hlegal).writable

theorem writable_of_respells {ρ : Renaming} {kinds kinds' : List Kind}
    (h : List.Forall₂ ρ.Respells kinds kinds')
    (hkinds : ∀ kind ∈ kinds, kind.Legal ∧ kind.Writable) : ∀ kind ∈ kinds', kind.Writable := by
  induction h with
  | nil => simp
  | cons hfirst _ ih =>
    obtain ⟨hkind, hkinds⟩ := List.forall_mem_cons.1 hkinds
    exact List.forall_mem_cons.2 ⟨hfirst.writable hkind.1 hkind.2, ih hkinds⟩

/-- What can be written can be written renamed. -/
theorem exists_writes_rename (ρ : Renaming) {text : String} {k : ClassDeclaration}
    (h : (Source.ofString text).Writes k) :
    ∃ text' : String, (Source.ofString text').Writes (k.rename ρ) := by
  have hkinds : ∀ kind ∈ k.tokens, kind.Legal ∧ kind.Writable := by
    intro kind hkind
    rw [h.2] at hkind
    refine ⟨?_, Source.writable_of_mem_kinds text kind hkind⟩
    obtain ⟨t, ht, rfl⟩ := List.mem_map.1 hkind
    exact TokenStream.legal_of_mem ht
  obtain ⟨text', hdecodes, heq⟩ := Source.exists_of_writable
    (writable_of_respells (k.tokens_rename ρ) hkinds)
  exact ⟨text', hdecodes, heq.symm⟩

namespace Compiler

/-- A class with renamed variables can be written down, and however it is, it compiles to the code
of the class. A name means in it, renamed, what it means in the class: the variable at the same
place of the same segment, of the same type, in the same scope. -/
theorem compileClass_rename (ρ : Renaming) {text : String} {k : ClassDeclaration}
    {code : List Instruction} (hwrites : (Source.ofString text).Writes k)
    (hcode : compileClass (.ofString text) = .ok code) (hapart : k.Apart ρ) :
    (∃ text' : String, (Source.ofString text').Writes (k.rename ρ)) ∧
      (∀ source' : Source, source'.Writes (k.rename ρ) → compileClass source' = .ok code) ∧
      ∀ d ∈ k.subroutines, ∀ name, IsName name →
        (bindings (k.rename ρ) (d.rename ρ (bindings k d))).resolve (ρ name) =
          ((bindings k d).resolve name).map ρ.symbol := by
  obtain ⟨hscoped, rfl⟩ := (compileClass_of_writes hwrites).1 hcode
  have hnamed : k.Named := ClassDeclaration.named_of_writes hwrites
  refine ⟨exists_writes_rename ρ hwrites, fun source' hwrites' => ?_, fun d hd name hname => ?_⟩
  · exact (compileClass_of_writes hwrites').2
      ⟨k.scoped_rename ρ hnamed hapart hscoped, (k.code_rename ρ hnamed hapart hscoped).symm⟩
  · rw [bindings_rename]
    exact Bindings.resolve_rename ρ (named_bindings hnamed hd) (.inr hname)

/-- The parameter hides the static of the same name. One call is of a method of a field, one of a
subroutine of another class. -/
def pickMethod : SubroutineDeclaration where
  kind := .method
  returnType := some .int
  name := "pick"
  parameters := [⟨.int, "n"⟩]
  locals := []
  body := .cons (.assign "x" (.term (.variable "n")))
    (.cons (.call (.qualified "x" "pick" (.cons (.term (.variable "n")) .nil)))
    (.cons (.call (.qualified "Sys" "wait" (.cons (.term (.variable "n")) .nil)))
    (.cons (.giveBack (some (.term (.variable "n")))) .nil)))

def lastFunction : SubroutineDeclaration where
  kind := .function
  returnType := some .int
  name := "last"
  parameters := []
  locals := []
  body := .cons (.giveBack (some (.term (.variable "n")))) .nil

def hidingClass : ClassDeclaration where
  name := "A"
  declarations := [⟨.ofClass, ⟨.int, "n", []⟩⟩, ⟨.ofObject, ⟨.object "A", "x", []⟩⟩]
  subroutines := [pickMethod, lastFunction]

/-- The class with these names for the variables that are called `n` and `x` in it. -/
def hidingText (n x : String) : String :=
  "class A \x7b\nstatic int " ++ n ++ ";\nfield A " ++ x ++ ";\nmethod int pick(int " ++ n ++
    ") \x7b\nlet " ++ x ++ " = " ++ n ++ ";\ndo " ++ x ++ ".pick(" ++ n ++ ");\ndo Sys.wait(" ++
    n ++ ");\nreturn " ++ n ++ ";\n\x7d\nfunction int last() \x7b return " ++ n ++ "; \x7d\n\x7d"

def exchangeNX : Renaming :=
  .exchange (show IsName "n" by unfold IsName; decide) (show IsName "x" by unfold IsName; decide)

/-- The field takes the name of the parameter and of the static, and they take that of the field. -/
theorem compileClass_rename_hiding :
    compileClass (.ofString (hidingText "n" "x")) = .ok hidingClass.code ∧
      compileClass (.ofString (hidingText "x" "n")) = .ok hidingClass.code := by
  have hwrites : (Source.ofString (hidingText "n" "x")).Writes hidingClass := by decide +kernel
  have hscoped : hidingClass.Scoped := by
    refine ⟨by decide, fun d hd => ?_⟩
    obtain rfl | rfl : d = pickMethod ∨ d = lastFunction := by simpa [hidingClass] using hd
    all_goals exact ⟨by decide, by decide, by decide⟩
  have hcode : compileClass (.ofString (hidingText "n" "x")) = .ok hidingClass.code :=
    (compileClass_of_writes hwrites).2 ⟨hscoped, rfl⟩
  have hapart : hidingClass.Apart exchangeNX := by decide +kernel
  have hwrites' :
      (Source.ofString (hidingText "x" "n")).Writes (hidingClass.rename exchangeNX) := by
    decide +kernel
  exact ⟨hcode, (compileClass_rename exchangeNX hwrites hcode hapart).2.1 _ hwrites'⟩

end Compiler

end Jack

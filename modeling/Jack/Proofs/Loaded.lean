import Jack.Proofs.ClassCode
import Jack.Proofs.Loading
import Jack.Proofs.Reference
import Jack.Proofs.Unambiguous
import Jack.Proofs.Vocabulary

/-!
# Loading compiled classes

The names in the code of a class are made of identifiers, so they are words. Compiled classes that
load are therefore loaded as the code of their trees, one class behind the other
(`exists_classes_of_load`).
-/

namespace Jack

open Syntax
open Token (Kind)

theorem IsWord.append {w w' : List Char} (h : IsWord w) (h' : ∀ c ∈ w', Text.isBlank c = false) :
    IsWord (w ++ w') := by
  refine ⟨by simp [h.1], fun c hc => ?_⟩
  rcases List.mem_append.1 hc with hc | hc
  · exact h.2 c hc
  · exact h' c hc

theorem IsName.isWord {name : String} (h : IsName name) : IsWord name.toList := by
  refine ⟨h.ne_nil, fun c hc => ?_⟩
  have hends := h.endsWord_eq_false c hc
  simp only [Lexeme.endsWord, Bool.or_eq_false_iff] at hends
  exact hends.1.1

theorem isWord_qualified {owner name : String} (ho : IsWord owner.toList) (hn : IsWord name.toList) :
    IsWord (owner ++ "." ++ name).toList := by
  rw [String.toList_append, String.toList_append]
  refine (ho.append fun c hc => ?_).append hn.2
  have hdot : c = '.' := by simpa using hc
  rw [hdot]
  decide

theorem isWord_of_isLabel {name : String} (h : IsLabel name) : IsWord name.toList := by
  obtain ⟨n, hn⟩ := h
  have hrepr := Instruction.isWord_repr n
  simp only [BranchLabels.numbered, LoopLabels.numbered, List.mem_cons, List.not_mem_nil,
    or_false] at hn
  rcases hn with rfl | rfl | rfl | rfl <;> rw [String.toList_append] <;>
    exact IsWord.append (by decide) hrepr.2

namespace Syntax

variable {k : ClassDeclaration} {d : SubroutineDeclaration}

/-! ## What variables are declared with -/

theorem mem_symbols {ds : List Declared} {s : Symbol} (h : s ∈ symbols ds) :
    ∃ e ∈ ds, s.name = e.name ∧ s.typeName = e.typeName ∧ s.kind = e.kind ∧
      s.index < ds.countP (·.kind = e.kind) := by
  simp only [symbols, List.mem_map] at h
  obtain ⟨⟨e, n⟩, hmem, rfl⟩ := h
  obtain ⟨hlt, he⟩ := List.mem_zipIdx' hmem
  refine ⟨e, he ▸ List.getElem_mem hlt, rfl, rfl, rfl, ?_⟩
  have hsplit : ds = ds.take n ++ e :: ds.drop (n + 1) := by
    rw [show e = ds[n] from he, List.getElem_cons_drop, List.take_append_drop]
  have hcount : ds.countP (·.kind = e.kind) = (ds.take n).countP (·.kind = e.kind) +
      ((ds.drop (n + 1)).countP (·.kind = e.kind) + 1) := by
    conv_lhs => rw [hsplit]
    rw [List.countP_append, List.countP_cons_of_pos (by simp)]
  simp only [hcount]
  omega

theorem token_mem_variables (v : Variables) : v.type.token ∈ v.tokens := by simp [Variables.tokens]

/-- The type of what a class declares is written in it. -/
theorem ClassDeclaration.exists_type_of_mem {e : Declared} (h : e ∈ k.declared) :
    ∃ t : VariableType, e.typeName = t.text ∧ t.token ∈ k.tokens := by
  simp only [ClassDeclaration.declared, ClassVariables.declared, Variables.declared,
    List.mem_flatMap, List.mem_map] at h
  obtain ⟨v, hv, name, -, rfl⟩ := h
  refine ⟨v.declaration.type, rfl, ?_⟩
  simp only [ClassDeclaration.tokens, List.mem_append, List.mem_cons, List.mem_flatMap]
  exact .inl (.inl (.inr (.inr (.inr ⟨v, hv, List.mem_cons_of_mem _ (token_mem_variables _)⟩))))

theorem SubroutineDeclaration.exists_type_of_mem {e : Declared} (h : e ∈ d.declared) :
    ∃ t : VariableType, e.typeName = t.text ∧ t.token ∈ d.tokens := by
  simp only [SubroutineDeclaration.declared, Variables.declared, List.mem_append, List.mem_map,
    List.mem_flatMap] at h
  rcases h with ⟨p, hp, rfl⟩ | ⟨v, hv, name, -, rfl⟩
  · refine ⟨p.type, rfl, ?_⟩
    have hmem : p.type.token ∈ parameterTokens d.parameters :=
      mem_parameterTokens hp (by simp [Parameter.tokens])
    simp [SubroutineDeclaration.tokens, hmem]
  · refine ⟨v.type, rfl, ?_⟩
    have hmem : v.type.token ∈ d.locals.flatMap fun v => .keyword .varKeyword :: v.tokens :=
      List.mem_flatMap.2 ⟨v, hv, List.mem_cons_of_mem _ (token_mem_variables v)⟩
    simp only [SubroutineDeclaration.tokens, List.mem_append, List.mem_cons]
    simp [hmem]

section Names

variable (hk : ∀ t ∈ k.tokens, t.Legal)

include hk

theorem ClassDeclaration.isWord_name : IsWord k.name.toList :=
  IsName.isWord (hk (.identifier k.name) (by simp [ClassDeclaration.tokens]))

theorem isWord_type {t : VariableType} (h : t.token ∈ k.tokens) : IsWord t.text.toList := by
  cases t with
  | object className => exact IsName.isWord (hk (.identifier className) h)
  | _ => decide

theorem isWord_of_visible (hd : d ∈ k.subroutines) {s : Symbol} (h : s ∈ (bindings k d).visible) :
    IsWord s.typeName.toList := by
  rcases List.mem_append.1 h with h | h
  · obtain ⟨e, he, -, htype, -⟩ := mem_symbols h
    rw [htype]
    rcases List.mem_append.1 he with he | he
    · simp only [SubroutineDeclaration.implicit] at he
      split at he
      · obtain rfl := List.mem_singleton.1 he
        exact k.isWord_name hk
      · simp at he
    · obtain ⟨t, ht, hmem⟩ := SubroutineDeclaration.exists_type_of_mem he
      rw [ht]
      exact isWord_type hk ((within_of_mem_subroutines hd).mem _ hmem)
  · obtain ⟨e, he, -, htype, -⟩ := mem_symbols h
    obtain ⟨t, ht, hmem⟩ := ClassDeclaration.exists_type_of_mem he
    rw [htype, ht]
    exact isWord_type hk hmem

/-- The names in the code of a class are words. -/
theorem ClassDeclaration.named : ∀ i ∈ k.code, i.Named := by
  intro i hi name hname
  have hidentifier : ∀ {name}, Kind.identifier name ∈ k.tokens → IsWord name.toList :=
    fun h => IsName.isWord (hk _ h)
  cases k.occurs i hi with
  | @function d hd =>
    simp only [Instruction.name?, Option.mem_def, Option.some.injEq] at hname
    subst hname
    exact isWord_qualified (k.isWord_name hk) (hidentifier ((within_of_mem_subroutines hd).mem _
      (by simp [SubroutineDeclaration.tokens])))
  | fieldCount | receiver | popObject => simp [Instruction.name?] at hname
  | @body d _ hd h =>
    cases h with
    | compute h =>
      cases h with
      | @call owner callee count ho hn hc =>
        simp only [Instruction.name?, Option.mem_def, Option.some.injEq] at hname
        subst hname
        refine isWord_qualified ?_ (hidentifier hn)
        rcases ho with rfl | ⟨s, hs, rfl⟩ | ho
        · exact k.isWord_name hk
        · exact isWord_of_visible hk hd hs
        · exact hidentifier ho
      | routine r =>
        simp only [Routine.call, Instruction.name?, Option.mem_def, Option.some.injEq] at hname
        subst hname
        cases r <;> decide
      | this =>
        simp only [Bindings.this] at hname
        split at hname <;> simp [Instruction.name?] at hname
      | _ => simp [Instruction.name?, Symbol.push] at hname
    | label h | goto h | ifGoto h =>
      simp only [Instruction.name?, Option.mem_def, Option.some.injEq] at hname
      subst hname
      exact isWord_of_isLabel h
    | _ => simp [Instruction.name?, Symbol.pop] at hname

end Names

/-! ## Classes -/

/-- The class is what the source says, and keeps the scoping rules. -/
structure ClassDeclaration.Compiles (k : ClassDeclaration) (source : Source) : Prop where
  decodes : source.Decodes
  tokens : k.tokens = source.kinds
  rules : k.Scoped

instance (k : ClassDeclaration) (source : Source) : Decidable (k.Compiles source) :=
  decidable_of_iff (source.Decodes ∧ k.tokens = source.kinds ∧ k.Scoped)
    ⟨fun ⟨h, h', h''⟩ => ⟨h, h', h''⟩, fun h => ⟨h.1, h.2, h.3⟩⟩

/-- A source is the text of one class only. -/
theorem ClassDeclaration.Compiles.unique {source : Source} {k' : ClassDeclaration}
    (h : k.Compiles source) (h' : k'.Compiles source) : k = k' :=
  tokens_injective (h.tokens.trans h'.tokens.symm)

theorem ClassDeclaration.Compiles.legal {source : Source} (h : k.Compiles source) :
    ∀ t ∈ k.tokens, t.Legal := by
  intro t ht
  rw [h.tokens, Source.kinds, List.mem_map] at ht
  obtain ⟨t', ht', rfl⟩ := ht
  exact TokenStream.legal_of_mem ht'

theorem ClassDeclaration.Compiles.compileClass_eq {source : Source} (h : k.Compiles source) :
    compileClass source = .ok k.code :=
  Compiler.compileClass_of_tree h.decodes h.tokens h.rules

end Syntax

theorem exists_compiles_of_compileClass {source : Source} {code : List Instruction}
    (h : compileClass source = .ok code) :
    ∃ k : ClassDeclaration, k.Compiles source ∧ k.code = code := by
  obtain ⟨hdecodes, k, htokens, hrules, hcode⟩ := Compiler.exists_tree_of_compileClass h
  exact ⟨k, ⟨hdecodes, htokens, hrules⟩, hcode⟩

/-- A function of a compiled source is that of a subroutine. -/
theorem exists_definition_of_isIn {source : Source} {code : List Instruction} {f : Machine.Definition}
    (h : compileClass source = .ok code) (hf : f.IsIn code) :
    ∃ (k : ClassDeclaration) (d : SubroutineDeclaration) (i w : Nat),
      k.Compiles source ∧ d ∈ k.subroutines ∧ f = d.definition k i w := by
  obtain ⟨k, hk, rfl⟩ := exists_compiles_of_compileClass h
  obtain ⟨d, hd, i, w, rfl⟩ := exists_subroutine_of_mem (k.isIn_code_iff.1 hf)
  exact ⟨k, d, i, w, hk, hd, rfl⟩

open Instruction

theorem compileText_eq_ok_iff {source text : String} : compileText source = .ok text ↔
    ∃ k : ClassDeclaration, k.Compiles (.ofString source) ∧ listing k.code = text := by
  constructor
  · intro h
    cases hc : compileClass (.ofString source) with
    | error e => simp [compileText, hc, Functor.map, Except.map] at h
    | ok code =>
      obtain ⟨k, hk, rfl⟩ := exists_compiles_of_compileClass hc
      simp only [compileText, hc, Functor.map, Except.map, Except.ok.injEq] at h
      exact ⟨k, hk, h⟩
  · rintro ⟨k, hk, rfl⟩
    rw [compileText, hk.compileClass_eq]
    rfl

/-- The texts of several classes, one behind the other, are the text of their code. -/
theorem exists_classes {sources texts : List String} (h : sources.mapM compileText = .ok texts) :
    ∃ ks : List ClassDeclaration,
      List.Forall₂ (fun source k => k.Compiles (.ofString source)) sources ks ∧
        String.join texts = listing (ks.flatMap (·.code)) := by
  induction sources generalizing texts with
  | nil =>
    simp only [List.mapM_nil, pure, Except.pure, Except.ok.injEq] at h
    subst h
    exact ⟨[], .nil, rfl⟩
  | cons source sources ih =>
    rw [List.mapM_cons] at h
    cases hc : compileText source with
    | error e => simp [hc, bind, Except.bind] at h
    | ok text =>
      cases hrest : sources.mapM compileText with
      | error e => simp [hc, hrest, bind, Except.bind] at h
      | ok rest =>
        simp only [hc, hrest, bind, Except.bind, pure, Except.pure, Except.ok.injEq] at h
        subst h
        obtain ⟨k, hk, rfl⟩ := compileText_eq_ok_iff.1 hc
        obtain ⟨ks, hks, hjoin⟩ := ih hrest
        refine ⟨k :: ks, .cons hk hks, ?_⟩
        rw [String.join_cons, hjoin]
        simp [listing]

namespace Machine

variable {ks : List ClassDeclaration} {m : Machine}

/-- Compiled classes are loaded as the code of their trees. -/
theorem load_classes (h : ∀ k ∈ ks, ∃ source, k.Compiles source) :
    load (listing (ks.flatMap (·.code))) = .ok m ↔
      (∀ k ∈ ks, ∀ i ∈ k.code, i.Fits) ∧
        m = ofProgram (.ofInstructions (ks.flatMap (·.code))) := by
  have hnamed : ∀ i ∈ ks.flatMap (·.code), i.Named := by
    intro i hi
    obtain ⟨k, hk, hi⟩ := List.mem_flatMap.1 hi
    obtain ⟨source, hsource⟩ := h k hk
    exact k.named hsource.legal i hi
  rw [load_listing hnamed]
  simp only [List.mem_flatMap, forall_exists_index, and_imp]
  exact and_congr_left fun _ => ⟨fun h k hk i hi => h i k hk hi, fun h i k hk hi => h k hk i hi⟩

theorem mapM_compileText
    (h : List.Forall₂ (fun source k => k.Compiles (.ofString source)) sources ks) :
    sources.mapM compileText = .ok (ks.map fun k => listing k.code) := by
  induction h with
  | nil => rfl
  | @cons source k sources ks hk _ ih =>
    rw [List.mapM_cons, compileText_eq_ok_iff.2 ⟨k, hk, rfl⟩, ih]
    rfl

theorem join_listing (ks : List ClassDeclaration) :
    String.join (ks.map fun k => listing k.code) = listing (ks.flatMap (·.code)) := by
  induction ks with
  | nil => rfl
  | cons k ks ih =>
    rw [List.map_cons, String.join_cons, ih, List.flatMap_cons]
    simp [listing]

theorem load_of_compiles {k : ClassDeclaration} {source : Source} (h : k.Compiles source)
    (hfits : ∀ i ∈ k.code, i.Fits) :
    load (String.join [listing k.code]) = .ok (ofProgram (.ofInstructions k.code)) := by
  have hjoin := join_listing [k]
  rw [List.map_singleton, List.flatMap_singleton] at hjoin
  rw [hjoin]
  exact (load_listing (k.named h.legal)).2 ⟨hfits, rfl⟩

theorem exists_compiles {sources : List String}
    (h : List.Forall₂ (fun source k => k.Compiles (.ofString source)) sources ks) :
    ∀ k ∈ ks, ∃ source, k.Compiles source := by
  intro k hk
  obtain ⟨i, hi, rfl⟩ := List.getElem_of_mem hk
  exact ⟨_, h.get (by rwa [h.length_eq]) hi⟩

theorem exists_classes_of_load {sources texts : List String}
    (hc : sources.mapM compileText = .ok texts) (hl : load (String.join texts) = .ok m) :
    ∃ ks : List ClassDeclaration,
      List.Forall₂ (fun source k => k.Compiles (.ofString source)) sources ks ∧
        (∀ k ∈ ks, ∀ i ∈ k.code, i.Fits) ∧
        m = ofProgram (.ofInstructions (ks.flatMap (·.code))) := by
  obtain ⟨ks, hks, hjoin⟩ := exists_classes hc
  rw [hjoin] at hl
  exact ⟨ks, hks, (load_classes (exists_compiles hks)).1 hl⟩

end Machine

end Jack

import Jack.Proofs.Reference
import Jack.Proofs.TokenClasses

/-!
# Writing tokens down

The tokens of a text can be printed again (`Source.writable_of_mem_kinds`), and any row of tokens
that can be printed is the row of some text (`Source.exists_of_writable`). So tokens put together
from those of a text, and from identifiers, can be written as a source.
-/

namespace Jack

open Text WholeText
open Lexeme (decode isSymbol)
open Token (Kind)

/-! ## What decodes -/

namespace Lexeme

variable {cs : List Char} {kind : Kind}

/-- A lexeme that is a token of the kind. -/
inductive Reads (cs : List Char) : Kind → Prop
  | string {content : List Char} (hcs : cs = '"' :: (content ++ ['"'])) (hquote : '"' ∉ content) :
    Reads cs (.string (String.ofList content))
  | integer (n : Nat) : Reads cs (.integer n)
  | symbol {c : Char} (h : isSymbol c = true) : Reads cs (.symbol c)
  | keyword (k : Keyword) : Reads cs (.keyword k)
  | identifier (name : String) (hdigit : ∀ c ∈ cs.head?, c.isDigit = false) :
    Reads cs (.identifier name)

theorem reads_of_decode (h : decode cs = .ok kind) : Reads cs kind := by
  have hdenotes := denotes_of_decode h
  cases kind with
  | string content =>
    obtain ⟨hcs, hcontent⟩ := hdenotes
    have hread : Reads cs (.string (String.ofList content.toList)) :=
      .string hcs fun hmem => (hcontent _ hmem).1 rfl
    rwa [String.ofList_toList] at hread
  | integer value => exact .integer value
  | symbol c => exact .symbol (by simpa [isSymbol] using hdenotes.2)
  | keyword k => exact .keyword k
  | identifier name => exact .identifier name hdenotes.2.2.2.1

end Lexeme

/-! ## What can be printed -/

theorem IsName.writable {name : String} (h : IsName name) : (Kind.identifier name).Writable := by
  refine ⟨h.ne_nil, h.endsWord_eq_false, ?_, fun k => (h.ne_keyword k).symm⟩
  cases Lexeme.reads_of_decode h with
  | identifier _ hdigit => exact hdigit

section Writable

variable {text lexeme after : List Char} {kind : Kind}

/-- A string that is cut from a text has no newline. -/
theorem not_mem_of_cut {content : List Char}
    (hcut : WholeText.cut? text = some ('"' :: (content ++ ['"']), after)) : '\n' ∉ content := by
  cases text with
  | nil => simp [WholeText.cut?] at hcut
  | cons c rest =>
    simp only [WholeText.cut?] at hcut
    split at hcut
    · split at hcut
      · obtain ⟨hlexeme, -⟩ := Prod.mk.inj (Option.some.inj hcut)
        have hcontent := List.append_cancel_right (List.cons.inj hlexeme).2
        rw [← hcontent]
        exact fun hmem => by simpa using List.mem_takeWhile_imp hmem
      · simp at hcut
    · rename_i hquote
      split at hcut <;> obtain ⟨hlexeme, -⟩ := Prod.mk.inj (Option.some.inj hcut) <;>
        exact absurd (List.cons.inj hlexeme).1 hquote

theorem writable_of_cut (hcut : WholeText.cut? text = some (lexeme, after))
    (hdecode : decode lexeme = .ok kind) : kind.Writable := by
  have hlegal := Lexeme.decode_legal hdecode
  cases Lexeme.reads_of_decode hdecode with
  | @string content hcs hquote =>
    intro c hc
    have hsmall := hlegal c hc
    rw [String.toList_ofList] at hc
    rw [hcs] at hcut
    exact ⟨ne_of_mem_of_not_mem hc hquote, ne_of_mem_of_not_mem hc (not_mem_of_cut hcut), hsmall⟩
  | integer => exact hlegal
  | symbol h => exact h
  | keyword => trivial
  | identifier => exact IsName.writable hlegal

theorem writable_of_mem_scan (text : List Char) : ∀ p ∈ (scan text).1, p.1.Writable := by
  fun_induction scan text with
  | case1 | case2 | case3 => simp
  | case4 text c rest hskip lexeme after hcut kind hdecode later failure hscan ih =>
    rw [hscan] at ih
    exact List.forall_mem_cons.2 ⟨writable_of_cut hcut hdecode, ih⟩

theorem Source.writable_of_mem_kinds (text : String) :
    ∀ kind ∈ (ofString text).kinds, kind.Writable := by
  intro kind hkind
  obtain ⟨htokens, -⟩ := (stands_ofSource text.toList).tokens
  obtain ⟨t, ht, rfl⟩ := List.mem_map.1 hkind
  refine writable_of_mem_scan text.toList (t.kind, t.lexeme.toList) ?_
  rw [← htokens]
  exact List.mem_map.2 ⟨t, ht, rfl⟩

end Writable

/-! ## Texts of tokens that can be printed -/

theorem exists_spells (kinds : List Kind) : ∃ text, Spells kinds text := by
  have hblank : Separator [' '] := .blank (by decide) .nil
  induction kinds with
  | nil => exact ⟨[], .nil⟩
  | cons kind kinds ih =>
    obtain ⟨text, htext⟩ := ih
    cases kinds with
    | nil => exact ⟨_, .single kind⟩
    | cons kind' kinds => exact ⟨_, .cons kind hblank htext⟩

theorem Source.exists_of_writable {kinds : List Kind} (h : ∀ kind ∈ kinds, kind.Writable) :
    ∃ text : String, (ofString text).Decodes ∧ (ofString text).kinds = kinds := by
  obtain ⟨text, hspells⟩ := exists_spells kinds
  obtain ⟨hkinds, hstop⟩ := kinds_of_spells h hspells
  refine ⟨String.ofList text, ?_, ?_⟩
  · rwa [Source.Decodes, ofString, String.toList_ofList]
  · rwa [Source.kinds, ofString, String.toList_ofList]

end Jack

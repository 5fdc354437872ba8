import Jack.Proofs.Calculation
import Jack.Proofs.Tokens

/-!
# Strings are built as they are written

The code of a string constant makes a string with room for its characters, and appends them one by
one. `Building` says how far it has come: the length that the string has, the characters that stand
behind it, and which cells are as they were. Each character takes two steps (`Building.append`), and
the characters of a constant are words (`Token.Kind.Legal`), so that reading the string afterwards
gives them back (`Building.run_stringAt`).
-/

namespace Jack.Machine

open Compiler Syntax

variable {m m' : Machine} {sp base capacity length : Nat}

/-! ## The routines -/

theorem run_newString (h : m.heapEnd + capacity + 1 < ramSize) :
    (runRoutine .stringNew [saturate capacity]).run m = .ok (some (saturate m.heapEnd))
      (({ m with heapEnd := m.heapEnd + capacity + 1 } : Machine).put m.heapEnd 0) := by
  simp only [ramSize] at h
  have hsize : (if saturate capacity = 32767 then (32767 : Word) else saturate capacity + 1) =
      saturate (capacity + 1) := by
    rw [if_neg, saturate_succ (by omega)]
    intro hmax
    have := saturate_inj (k := 32767) (by omega) (by omega) (hmax.trans (by decide))
    omega
  simp only [runRoutine, newString, hsize, map_eq_pure_bind, run_bind]
  rw [run_reserve (by simp only [ramSize]; omega)]
  simp only [run_address_saturate _ (show m.heapEnd ≤ 32767 by omega), run_pure,
    run_setCell _ _ (show m.heapEnd < ramSize by simp only [ramSize]; omega), Nat.add_assoc]

/-- A character goes behind those that are there. -/
theorem run_appendChar (c : Word) (hlength : m.word base = saturate length)
    (h : base + length + 1 < ramSize) :
    (runRoutine .stringAppendChar [saturate base, c]).run m = .ok (some (saturate base))
      ((m.put (base + length + 1) c).put base (saturate (length + 1))) := by
  simp only [ramSize] at h
  have hkeep : (m.put (base + length + 1) c).word base = saturate length := by
    rw [word_put_of_lt _ _ (by omega), if_neg (by omega), hlength]
  simp only [runRoutine, appendChar, map_eq_pure_bind, run_bind,
    run_address_saturate _ (show base ≤ 32767 by omega),
    run_cell _ (show base < ramSize by simp only [ramSize]; omega), hlength,
    run_address_saturate _ (show length ≤ 32767 by omega),
    run_setCell _ _ (show base + length + 1 < ramSize by simp only [ramSize]; omega), hkeep,
    run_setCell _ _ (show base < ramSize by simp only [ramSize]; omega), run_pure,
    saturate_succ (show length < 32767 by omega)]

/-! ## The steps -/

/-- So many instructions further, nothing has changed but the memory and, by so many cells, the end
of the heap. -/
def Onward (m : Machine) (instructions cells : Nat) (m' : Machine) : Prop :=
  m' = { m with ram := m'.ram, pc := m.pc + instructions, heapEnd := m.heapEnd + cells }

namespace Onward

variable {m₁ : Machine} {i i' c c' : Nat}

theorem trans (h : Onward m i c m₁) (h' : Onward m₁ i' c' m') : Onward m (i + i') (c + c') m' := by
  rw [Onward] at h h'
  rw [Onward, h', h, ← Nat.add_assoc, ← Nat.add_assoc]

theorem program (h : Onward m i c m') : m'.program = m.program := by rw [h]

theorem pc (h : Onward m i c m') : m'.pc = m.pc + i := by rw [h]

theorem heapEnd (h : Onward m i c m') : m'.heapEnd = m.heapEnd + c := by rw [h]

theorem instruction? {j : Instruction} (h : Onward m i c m')
    (hj : m.program.code[m.pc + i]? = some j) : m'.instruction? = some j := by
  rw [Machine.instruction?, h.program, h.pc, hj]

end Onward

theorem walk_constant {n : Nat} (hi : m.instruction? = some (.push .constant n))
    (hsp : m.word 0 = saturate sp) (hle : sp ≤ heapBase) :
    ∃ m', Walk 1 m m' ∧ Onward m 1 0 m' ∧ ∀ a, m'.word a =
      if a = 0 then saturate (sp + 1) else if a = sp then saturate n else m.word a := by
  obtain ⟨m', hw, rfl⟩ := exists_walk_push hsp hle hi rfl
  simp only [heapBase] at hle
  exact ⟨_, hw, rfl, fun a => word_pushed _ _ (by omega)⟩

theorem walk_routine {routine : Routine} {first : Nat} {m₁ : Machine} {value : Word}
    (hi : m.instruction? = some routine.call) (hsp : m.word 0 = saturate (first + routine.arity))
    (hpos : 0 < first) (hle : first + routine.arity ≤ heapBase)
    (h : (runRoutine routine ((List.range' first routine.arity).map m.word)).run m.next =
      .ok (some value) m₁) : Walk 1 m (m₁.pushed first value) := by
  simp only [heapBase] at hle
  exact .single (by simp [hi, Routine.call])
    (run_step_routine hi hsp (by omega) hpos (by omega) h)

theorem walk_newString (hi : m.instruction? = some Routine.stringNew.call)
    (hsp : m.word 0 = saturate (sp + 1)) (hpos : 0 < sp) (hle : sp < heapBase)
    (hcapacity : m.word sp = saturate capacity) (h : m.heapEnd + capacity + 1 < ramSize) :
    ∃ m', Walk 1 m m' ∧ Onward m 1 (capacity + 1) m' ∧ ∀ a, m'.word a =
      if a = 0 then saturate (sp + 1) else if a = sp then saturate m.heapEnd
      else if a = m.heapEnd then 0 else m.word a := by
  simp only [heapBase, ramSize] at hle h
  have harguments : (List.range' sp Routine.stringNew.arity).map m.word = [saturate capacity] := by
    simp [Routine.arity, hcapacity]
  have hroutine := run_newString (m := m.next) h
  rw [← harguments] at hroutine
  have hheap : m.next.heapEnd ≤ 32767 := by
    change m.heapEnd ≤ 32767
    omega
  refine ⟨_, walk_routine hi hsp hpos hle hroutine, rfl, fun a => ?_⟩
  rw [word_pushed _ _ (by omega), word_put_of_lt _ _ hheap]
  simp only [eq_comm]
  rfl

theorem walk_appendChar {c : Word} (hi : m.instruction? = some Routine.stringAppendChar.call)
    (hsp : m.word 0 = saturate (sp + 2)) (hpos : 0 < sp) (hle : sp + 1 < heapBase)
    (hbase : m.word sp = saturate base) (hc : m.word (sp + 1) = c)
    (hlength : m.word base = saturate length) (h : base + length + 1 < ramSize) :
    ∃ m', Walk 1 m m' ∧ Onward m 1 0 m' ∧ ∀ a, m'.word a =
      if a = 0 then saturate (sp + 1) else if a = sp then saturate base
      else if a = base then saturate (length + 1)
      else if a = base + length + 1 then c else m.word a := by
  simp only [heapBase, ramSize] at hle h
  have harguments : (List.range' sp Routine.stringAppendChar.arity).map m.word =
      [saturate base, c] := by
    simp [Routine.arity, List.range'_succ, hbase, hc]
  have hroutine := run_appendChar (m := m.next) c hlength h
  rw [← harguments] at hroutine
  refine ⟨_, walk_routine hi hsp hpos hle hroutine, rfl, fun a => ?_⟩
  rw [word_pushed _ _ (by omega), word_put_of_lt _ _ (by omega), word_put_of_lt _ _ (by omega)]
  simp only [eq_comm]
  rfl

/-! ## A string in the making -/

/-- The machine has come from `m` to where the string on top of `sp` cells has been given its room,
and these characters. -/
structure Building (m : Machine) (sp capacity : Nat) (content : List Char) (m' : Machine) :
    Prop where
  control : Onward m (2 + 2 * content.length) (capacity + 1) m'
  stack : m'.word 0 = saturate (sp + 1)
  top : m'.word sp = saturate m.heapEnd
  length : m'.word m.heapEnd = saturate content.length
  characters : (List.range' (m.heapEnd + 1) content.length).map m'.word =
    content.map (saturate ·.toNat)
  others : ∀ a, a ≠ 0 → a < sp ∨ heapBase ≤ a →
    a < m.heapEnd ∨ m.heapEnd + content.length < a → m'.word a = m.word a

namespace Building

variable {content : List Char}

/-- A string begins without characters. -/
theorem start (hsp : m.word 0 = saturate sp) (hpos : 0 < sp) (hle : sp < heapBase)
    (hheap : heapBase ≤ m.heapEnd) (hroom : m.heapEnd + capacity + 1 < ramSize)
    (hcode : Placed m.program m.pc [.push .constant capacity, Routine.stringNew.call]) :
    ∃ m', Walk 2 m m' ∧ Building m sp capacity [] m' := by
  obtain ⟨hpush, hnew, -⟩ := hcode
  obtain ⟨m₁, hw₁, hm₁, hword₁⟩ := walk_constant hpush hsp (by omega)
  have hheap₁ : m₁.heapEnd = m.heapEnd := hm₁.heapEnd
  simp only [heapBase] at hle hheap
  have hcapacity : m₁.word sp = saturate capacity := by
    rw [hword₁, if_neg (by omega), if_pos rfl]
  obtain ⟨m₂, hw₂, hm₂, hword₂⟩ := walk_newString (hm₁.instruction? hnew)
    (by rw [hword₁, if_pos rfl]) hpos hle hcapacity (by rw [hheap₁]; exact hroom)
  rw [hheap₁] at hword₂
  refine ⟨m₂, hw₁.trans hw₂, ⟨?_, ?_, ?_, ?_, rfl, fun a h0 hstack hblock => ?_⟩⟩
  · rw [← Nat.zero_add (capacity + 1)]
    exact hm₁.trans hm₂
  · rw [hword₂, if_pos rfl]
  · rw [hword₂, if_neg (by omega), if_pos rfl]
  · rw [hword₂, if_neg (by omega), if_neg (by omega), if_pos rfl]
    rfl
  · simp only [heapBase, List.length_nil] at hstack hblock
    rw [hword₂, if_neg h0, if_neg (by omega), if_neg (by omega), hword₁, if_neg h0,
      if_neg (by omega)]

/-- Each character is written behind the others, inside the room of the string. -/
theorem append (h : Building m sp capacity content m') {c : Char} (hpos : 0 < sp)
    (hle : sp + 1 < heapBase) (hheap : heapBase ≤ m.heapEnd)
    (hroom : m.heapEnd + capacity + 1 < ramSize) (hlt : content.length < capacity)
    (hcode : Placed m.program m'.pc (appendCode c)) :
    ∃ m'', Walk 2 m' m'' ∧ Building m sp capacity (content ++ [c]) m'' := by
  obtain ⟨hpush, hcall, -⟩ := hcode
  rw [← h.control.program] at hpush hcall
  obtain ⟨m₁, hw₁, hm₁, hword₁⟩ := walk_constant hpush h.stack (by omega)
  simp only [heapBase, ramSize] at hle hheap hroom
  obtain ⟨m₂, hw₂, hm₂, hword₂⟩ := walk_appendChar (c := saturate c.toNat) (hm₁.instruction? hcall)
    (by rw [hword₁, if_pos rfl]) hpos hle
    (by rw [hword₁, if_neg (by omega), if_neg (by omega), h.top])
    (by rw [hword₁, if_neg (by omega), if_pos rfl])
    (by rw [hword₁, if_neg (by omega), if_neg (by omega), h.length])
    (by simp only [ramSize]; omega)
  have hkeep : ∀ a, 2048 ≤ a → a ≠ m.heapEnd → a ≠ m.heapEnd + content.length + 1 →
      m₂.word a = m'.word a := by
    intro a ha hne hne'
    rw [hword₂, if_neg (by omega), if_neg (by omega), if_neg hne, if_neg hne', hword₁,
      if_neg (by omega), if_neg (by omega)]
  refine ⟨m₂, hw₁.trans hw₂, ⟨?_, ?_, ?_, ?_, ?_, fun a h0 hstack hblock => ?_⟩⟩
  · rw [List.length_append, List.length_singleton, Nat.mul_add, ← Nat.add_assoc]
    exact h.control.trans (hm₁.trans hm₂)
  · rw [hword₂, if_pos rfl]
  · rw [hword₂, if_neg (by omega), if_pos rfl]
  · rw [hword₂, if_neg (by omega), if_neg (by omega), if_pos rfl, List.length_append]
    rfl
  · have hbefore : (List.range' (m.heapEnd + 1) content.length).map m₂.word =
        content.map (saturate ·.toNat) := by
      rw [← h.characters]
      refine List.map_congr_left fun a ha => ?_
      rw [List.mem_range'_1] at ha
      exact hkeep a (by omega) (by omega) (by omega)
    rw [List.length_append, List.length_singleton, List.range'_1_concat, List.map_append, hbefore,
      List.map_append, List.map_singleton, List.map_singleton, hword₂, if_neg (by omega),
      if_neg (by omega), if_neg (by omega), if_pos (by omega)]
  · simp only [heapBase, List.length_append, List.length_singleton] at hstack hblock
    rw [← h.others a h0 (by simp only [heapBase]; omega) (by omega), hword₂, if_neg h0,
      if_neg (by omega), if_neg (by omega), if_neg (by omega), hword₁, if_neg h0, if_neg (by omega)]

theorem length_appendCodes (rest : List Char) :
    (rest.flatMap appendCode).length = 2 * rest.length := by
  rw [List.length_flatMap]
  simp [appendCode, Nat.mul_comm]

/-- All the characters that are still to come are appended. -/
theorem appendAll {rest : List Char} (hpos : 0 < sp) (hheap : heapBase ≤ m.heapEnd)
    (hroom : m.heapEnd + capacity + 1 < ramSize) (hle : rest ≠ [] → sp + 1 < heapBase) :
    ∀ {content : List Char} {m' : Machine}, Building m sp capacity content m' →
      content.length + rest.length = capacity →
      Placed m.program m'.pc (rest.flatMap appendCode) →
      ∃ m'', Walk (2 * rest.length) m' m'' ∧ Building m sp capacity (content ++ rest) m'' := by
  induction rest with
  | nil =>
    intro content m' h _ _
    exact ⟨m', .refl m', by rwa [List.append_nil]⟩
  | cons c rest ih =>
    intro content m' h hlength hcode
    rw [List.flatMap_cons, placed_append] at hcode
    rw [List.length_cons] at hlength
    obtain ⟨m₁, hw₁, h₁⟩ := h.append hpos (hle (List.cons_ne_nil c rest)) hheap hroom
      (by omega) hcode.1
    have hpc₁ : m₁.pc = m'.pc + (appendCode c).length := by
      rw [h₁.control.pc, h.control.pc, List.length_append, List.length_singleton, Nat.mul_add]
      rfl
    obtain ⟨m₂, hw₂, h₂⟩ := ih (fun _ => hle (List.cons_ne_nil c rest)) h₁
      (by rw [List.length_append, List.length_singleton]; omega) (by rw [hpc₁]; exact hcode.2)
    refine ⟨m₂, ?_, by rwa [List.append_cons]⟩
    rw [List.length_cons, Nat.mul_add, Nat.add_comm]
    exact hw₁.trans hw₂

/-- The string reads as its characters, if these are words. -/
theorem run_stringAt (h : Building m sp capacity content m') (hlegal : ∀ c ∈ content, c.toNat ≤ 32767)
    (hlt : m.heapEnd + content.length + 1 ≤ ramSize) :
    (stringAt (saturate m.heapEnd)).run m' = .ok (String.ofList content) m' := by
  simp only [ramSize] at hlt
  have hcells := run_cells m' (show m.heapEnd + 1 + content.length ≤ ramSize by
    simp only [ramSize]; omega)
  have hall : (content.map (saturate ·.toNat)).filter (0 ≤ ·) = content.map (saturate ·.toNat) := by
    rw [List.filter_eq_self]
    simp [saturate_nonneg]
  have hback : (content.map (saturate ·.toNat)).map (fun code => Char.ofNat code.toNatClampNeg) =
      content := by
    rw [List.map_map]
    refine (List.map_congr_left fun c hc => ?_).trans (List.map_id content)
    rw [Function.comp_apply, toNatClampNeg_saturate (hlegal c hc), Char.ofNat_toNat, id]
  simp only [stringAt, run_bind, run_address_saturate _ (show m.heapEnd ≤ 32767 by omega),
    run_cell _ (show m.heapEnd < ramSize by simp only [ramSize]; omega), h.length,
    run_address_saturate _ (show content.length ≤ 32767 by omega), hcells, run_pure, h.characters,
    hall, hback]

end Building

/-! ## String constants -/

/-- The code of a string constant leaves the address of a new string that reads as the constant, and
writes nothing but this string and the stack. -/
theorem string_built {source : Source} {t : Token} {content : String} {b : Bindings}
    (ht : t ∈ (TokenStream.ofSource source).tokens) (hkind : t.kind = .string content)
    (hcode : Placed m.program m.pc ((Term.string content).code b))
    (hheap : heapBase ≤ m.heapEnd) (hroom : m.heapEnd + content.length + 1 < ramSize)
    (hsp : m.word 0 = saturate sp) (hlow : stackBase ≤ sp)
    (hhigh : sp + min content.length 1 < heapBase) :
    ∃ m', Walk ((Term.string content).code b).length m m' ∧
      m' = { m with
        ram := m'.ram
        pc := m.pc + ((Term.string content).code b).length
        heapEnd := m.heapEnd + content.length + 1 } ∧
      m'.word 0 = saturate (sp + 1) ∧ m'.word sp = saturate m.heapEnd ∧
      (stringAt (saturate m.heapEnd)).run m' = .ok content m' ∧
      ∀ a, a ≠ 0 → a < sp ∨ heapBase ≤ a → a < m.heapEnd ∨ m.heapEnd + content.length < a →
        m'.word a = m.word a := by
  have hlegal : ∀ c ∈ content.toList, c.toNat ≤ 32767 := by
    have := TokenStream.legal_of_mem ht
    rw [hkind] at this
    exact this
  have hlength : ((Term.string content).code b).length = 2 + 2 * content.toList.length := by
    rw [Term.code, stringCode, List.length_append, Building.length_appendCodes]
    rfl
  rw [Term.code, stringCode, placed_append] at hcode
  rw [← String.length_toList] at hroom hhigh ⊢
  have hpos : 0 < sp := by
    simp only [stackBase] at hlow
    omega
  obtain ⟨m₁, hw₁, h₁⟩ := Building.start hsp hpos (by omega) hheap hroom hcode.1
  have hle : content.toList ≠ [] → sp + 1 < heapBase := fun hne => by
    have := List.length_pos_of_ne_nil hne
    omega
  obtain ⟨m₂, hw₂, h₂⟩ := h₁.appendAll hpos hheap hroom hle (Nat.zero_add _)
    (by rw [h₁.control.pc]; exact hcode.2)
  rw [List.nil_append] at h₂
  rw [hlength]
  refine ⟨m₂, hw₁.trans hw₂, h₂.control, h₂.stack, h₂.top, ?_, h₂.others⟩
  rw [h₂.run_stringAt hlegal (by omega), String.ofList_toList]

/-- The names do not matter here. -/
def bareBindings : Bindings := { className := "", kind := .function, visible := [] }

/-- A string constant of two characters, of two bytes each, and nothing else. -/
def wideMachine : Machine := ofProgram (.ofInstructions ((Term.string "żó").code bareBindings))

/-- Two characters of two bytes each take three cells. -/
theorem string_built_wide : ∃ m', Walk 6 wideMachine m' ∧ m'.heapEnd = 2051 ∧ m'.word 256 = 2048 ∧
    (stringAt 2048).run m' = .ok "żó" m' ∧ m'.word 3000 = 0 := by
  have ht : ⟨.string "żó", "\"żó\"", ⟨0, 6⟩⟩ ∈ (TokenStream.ofSource (.ofString "\"żó\"")).tokens := by
    decide +kernel
  have hcode : Placed wideMachine.program wideMachine.pc ((Term.string "żó").code bareBindings) :=
    ⟨rfl, rfl, rfl, rfl, rfl, rfl, trivial⟩
  have hsp : wideMachine.word 0 = saturate 256 := word_ofProgram 0
  obtain ⟨m', hw, hcontrol, -, htop, hread, hkeep⟩ := string_built ht rfl hcode (by decide)
    (by decide) hsp (by decide) (by decide)
  refine ⟨m', hw, by rw [hcontrol]; rfl, htop, hread, ?_⟩
  rw [hkeep 3000 (by decide) (by decide) (by decide)]
  exact word_ofProgram 3000

end Jack.Machine

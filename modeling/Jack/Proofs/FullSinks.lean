import Jack.Proofs.Trace

/-!
# Sinks that run full

Whether a sink refuses an instruction makes no difference to what is compiled before: every sink is
handed the instructions that a collector without a capacity keeps, up to the first that it refuses
(`compile_eq_writeAll`). A collector with a capacity keeps the first instructions, and a collector of
bytes the first bytes of the text, as many as there is room for (`compile_of_capacity`).
-/

namespace Jack

namespace Sink

/-! ## Collectors with a capacity -/

/-- A collector with a capacity takes the first instructions. -/
theorem writeAll_collector_of_capacity {n : Nat} :
    ∀ (items : Array Instruction) (code : List Instruction), items.size ≤ n →
      writeAll ({ items, capacity := some n } : Collector) code =
        ({ items := items ++ (code.take (n - items.size)).toArray, capacity := some n },
          if items.size + code.length ≤ n then none else some "sink is full")
  | items, [], h => by simp [writeAll, h]
  | items, i :: code, h => by
    simp only [writeAll, write, Option.any_some, decide_eq_true_eq]
    by_cases hfull : n ≤ items.size
    · have hlength : ¬ items.size + (i :: code).length ≤ n := by simp only [List.length_cons]; omega
      rw [if_pos hfull, if_neg hlength, Nat.sub_eq_zero_of_le hfull, List.take_zero]
      simp
    · have hroom : n - items.size = (n - (items.push i).size) + 1 := by
        rw [Array.size_push]; omega
      rw [if_neg hfull, hroom, List.take_succ_cons]
      simp only
      rw [writeAll_collector_of_capacity (items.push i) code (by rw [Array.size_push]; omega)]
      simp only [Array.size_push, List.length_cons, Nat.add_assoc, Nat.add_comm 1]
      simp

theorem extract_of_size_le {bytes : ByteArray} {n : Nat} (h : bytes.size ≤ n) :
    bytes.extract 0 n = bytes := by
  apply ByteArray.ext
  rw [ByteArray.data_extract]
  exact Array.extract_eq_self_of_le h

theorem listing_cons (i : Instruction) (code : List Instruction) :
    Instruction.listing (i :: code) = i.line ++ Instruction.listing code := by
  rw [Instruction.listing, List.map_cons, String.join_cons]
  rfl

theorem toUTF8_listing_cons (i : Instruction) (code : List Instruction) :
    (Instruction.listing (i :: code)).toUTF8 =
      i.line.toUTF8 ++ (Instruction.listing code).toUTF8 := by
  rw [listing_cons]
  exact String.toByteArray_append

/-- Of the line that does not fit, the beginning is taken. -/
theorem write_byteCollector {b : Nat} {bytes : ByteArray} (h : bytes.size ≤ b) (i : Instruction) :
    write ({ bytes, capacity := some b } : ByteCollector) i =
      ({ bytes := bytes ++ i.line.toUTF8.extract 0 (b - bytes.size), capacity := some b },
        if bytes.size + i.line.toUTF8.size ≤ b then none else some "failed to write whole buffer") := by
  have hsize : (i.line.toUTF8.extract 0 (b - bytes.size)).size = i.line.toUTF8.size ↔
      bytes.size + i.line.toUTF8.size ≤ b := by
    rw [ByteArray.size_extract]; omega
  simp only [write, ByteCollector.room?, Option.map_some, hsize]
  split <;> rfl

/-- A collector of bytes with a capacity takes the first bytes of the text. -/
theorem writeAll_byteCollector {b : Nat} :
    ∀ (bytes : ByteArray) (code : List Instruction), bytes.size ≤ b →
      writeAll ({ bytes, capacity := some b } : ByteCollector) code =
        ({ bytes := bytes ++ (Instruction.listing code).toUTF8.extract 0 (b - bytes.size)
           capacity := some b },
          if bytes.size + (Instruction.listing code).toUTF8.size ≤ b then none
          else some "failed to write whole buffer")
  | bytes, [], h => by
    have hempty : (Instruction.listing []).toUTF8 = ByteArray.empty := rfl
    have hsize : bytes.size + ByteArray.empty.size ≤ b := h
    rw [hempty, if_pos hsize, extract_of_size_le (Nat.zero_le _), ByteArray.append_empty]
    rfl
  | bytes, i :: code, h => by
    have hextract := @ByteArray.extract_append i.line.toUTF8 (Instruction.listing code).toUTF8 0
      (b - bytes.size)
    rw [Nat.zero_sub] at hextract
    simp only [writeAll, write_byteCollector h, toUTF8_listing_cons, ByteArray.size_append, hextract]
    by_cases hfits : bytes.size + i.line.toUTF8.size ≤ b
    · have hline : i.line.toUTF8.extract 0 (b - bytes.size) = i.line.toUTF8 :=
        extract_of_size_le (by omega)
      have hle : (bytes ++ i.line.toUTF8).size ≤ b := by rwa [ByteArray.size_append]
      simp only [if_pos hfits, hline]
      rw [writeAll_byteCollector _ code hle, ByteArray.size_append, Nat.sub_sub, ByteArray.append_assoc,
        Nat.add_assoc]
    · have hbehind : (Instruction.listing code).toUTF8.extract 0
          (b - bytes.size - i.line.toUTF8.size) = ByteArray.empty := by
        rw [show b - bytes.size - i.line.toUTF8.size = 0 by omega]
        exact ByteArray.extract_same
      have hmore : ¬ bytes.size + (i.line.toUTF8.size + (Instruction.listing code).toUTF8.size) ≤ b := by
        omega
      simp only [if_neg hfits, if_neg hmore, hbehind, ByteArray.append_empty]

end Sink

namespace Compiler

variable {σ : Type} [Sink σ]

/-- What a sink is handed is what a collector without a capacity keeps, up to the first instruction
that is refused; and only a refusal changes how the compilation ends. -/
theorem compile_eq_writeAll (hn : ∀ (sink : σ) (remark : Remark), Sink.note sink remark = sink)
    (source : Source) (sink : σ) :
    compile source sink =
      match Sink.writeAll sink (compile source ({} : Collector)).2.items.toList with
      | (sink, none) => ((compile source ({} : Collector)).1, sink)
      | (sink, some reason) => (.error (.emit reason), sink) := by
  unfold compile compileTokens
  split
  · rfl
  · have hall := run_eq_writeAll (σ := Collector) (fun _ _ => rfl) [.classDeclaration]
      { input := .ofSource source } {}
    rw [Sink.writeAll_collector, Array.empty_append] at hall
    rw [hall]
    exact run_eq_writeAll hn _ _ _

/-- A sink with a capacity stops the output where it is full, and changes nothing else: it has the
first instructions, or the first bytes of their text, that a sink without one would have, and if these
are all, the compilation ends as it would with that. -/
theorem compile_of_capacity (source : Source) :
    (∀ n : Nat, compile source ({ capacity := some n } : Collector) =
      let (result, sink) := compile source ({} : Collector)
      (if sink.items.toList.length ≤ n then result else .error (.emit "sink is full"),
        { items := (sink.items.toList.take n).toArray, capacity := some n })) ∧
    ∀ b : Nat, compile source ({ capacity := some b } : ByteCollector) =
      let (result, sink) := compile source ({} : Collector)
      let text := (Instruction.listing sink.items.toList).toUTF8
      (if text.size ≤ b then result else .error (.emit "failed to write whole buffer"),
        { bytes := text.extract 0 b, capacity := some b }) := by
  refine ⟨fun n => ?_, fun b => ?_⟩
  · rw [compile_eq_writeAll (fun _ _ => rfl), Sink.writeAll_collector_of_capacity _ _ (Nat.zero_le n)]
    rcases compile source ({} : Collector) with ⟨result, sink⟩
    simp only [Array.size_empty, Nat.zero_add, Nat.sub_zero, Array.empty_append]
    by_cases hfits : sink.items.toList.length ≤ n <;> simp only [hfits, if_true, if_false]
  · rw [compile_eq_writeAll (fun _ _ => rfl), Sink.writeAll_byteCollector _ _ (Nat.zero_le b)]
    rcases compile source ({} : Collector) with ⟨result, sink⟩
    simp only [ByteArray.size_empty, Nat.zero_add, Nat.sub_zero, ByteArray.empty_append]
    by_cases hfits : (Instruction.listing sink.items.toList).toUTF8.size ≤ b <;>
      simp only [hfits, if_true, if_false]

end Compiler

end Jack

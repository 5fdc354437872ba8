import Jack.Text.Blank

/-!
# Decimal numbers

`decimalBelow?` reads a number below a bound: digits, behind at most one plus sign. It reads back
what printing such a number writes (`decimalBelow?_repr`).
-/

namespace Jack.Text

def dropPlus : List Char → List Char
  | [] => []
  | c :: cs => if c = '+' then cs else c :: cs

def decimalBelow? (bound : Nat) (cs : List Char) : Option Nat :=
  let digits := dropPlus cs
  if digits.isEmpty || !digits.all Char.isDigit then none
  else
    let value := Nat.ofDigitChars 10 digits 0
    if value < bound then some value else none

theorem toList_repr (n : Nat) : n.repr.toList = Nat.toDigits 10 n := by
  simp [Nat.repr]

theorem isBlank_of_isDigit {c : Char} (h : c.isDigit = true) : isBlank c = false := by
  simp only [Char.isDigit, Bool.and_eq_true, decide_eq_true_eq, ge_iff_le,
    UInt32.le_iff_toNat_le] at h
  have hval : c.val.toNat = c.toNat := rfl
  have hlow : '0'.val.toNat = 48 := rfl
  have hhigh : '9'.val.toNat = 57 := rfl
  simp only [isBlank, Bool.or_eq_false_iff, Bool.and_eq_false_iff, decide_eq_false_iff_not,
    beq_eq_false_iff_ne]
  omega

theorem isDigit_of_mem_repr {n : Nat} {c : Char} (h : c ∈ n.repr.toList) : c.isDigit = true := by
  rw [toList_repr] at h
  exact Nat.isDigit_of_mem_toDigits (by decide) (by decide) h

theorem dropPlus_of_digits {cs : List Char} (h : ∀ c ∈ cs, c.isDigit = true) :
    dropPlus cs = cs := by
  cases cs with
  | nil => rfl
  | cons c cs =>
    refine if_neg ?_
    rintro rfl
    exact absurd (h '+' (by simp)) (by decide)

theorem ofDigitChars_repr (n : Nat) : Nat.ofDigitChars 10 n.repr.toList 0 = n := by
  rw [toList_repr]
  exact Nat.ofDigitChars_toDigits (by decide) (by decide)

theorem decimalBelow?_repr_eq (n bound : Nat) :
    decimalBelow? bound n.repr.toList = if n < bound then some n else none := by
  have hd : ∀ c ∈ n.repr.toList, c.isDigit = true := fun c => isDigit_of_mem_repr
  have hne : n.repr.toList ≠ [] := by
    rw [toList_repr]; exact Nat.toDigits_ne_nil
  have hg : ¬ (n.repr.toList.isEmpty || !n.repr.toList.all Char.isDigit) = true := by
    simpa [hne] using hd
  simp only [decimalBelow?, dropPlus_of_digits hd]
  rw [if_neg hg, ofDigitChars_repr]

theorem decimalBelow?_repr {n bound : Nat} (h : n < bound) :
    decimalBelow? bound n.repr.toList = some n := by
  rw [decimalBelow?_repr_eq, if_pos h]

end Jack.Text

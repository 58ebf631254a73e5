import TerseSchema.Number.Power

/-!
# References

A reference is the decimal number of a table entry.  Flat schemas refer to a
group by its digits alone and to a literal by `$` and its digits.

## Main definitions

* `Reference.digits` — the digits of an entry's number.
* `Reference.parse?` — the entry a run of ASCII digits refers to.  Leading zeros
  are allowed; a number of more than 64 bits is no reference.
-/

namespace TerseSchema.Reference

/-- The decimal digits of an entry's number. -/
def digits (index : Nat) : List Char := Nat.toDigits 10 index

/-- The number that a non-empty run of ASCII digits denotes, if it is below
`2 ^ 64`. -/
def parse? (text : List Char) : Option Nat :=
  if text ≠ [] ∧ text.all Char.isDigit then
    let index := Nat.ofDigitChars 10 text 0
    if index < pow2 64 then some index else none
  else none

theorem isDigit_of_mem {index : Nat} {c : Char} (h : c ∈ digits index) : c.isDigit :=
  Nat.isDigit_of_mem_toDigits (by decide) (by decide) h

theorem notMem_digits {index : Nat} {c : Char} (hc : c.isDigit = false) : c ∉ digits index := by
  intro h
  rw [isDigit_of_mem h] at hc
  cases hc

/-- Reading the digits of a number gives it back. -/
theorem parse?_digits {index : Nat} (h : index < pow2 64) : parse? (digits index) = some index := by
  have hne : digits index ≠ [] := Nat.toDigits_ne_nil
  have hall : (digits index).all Char.isDigit = true :=
    List.all_eq_true.mpr fun c hc => isDigit_of_mem hc
  simp only [parse?, hne, hall, ne_eq, not_false_eq_true, and_self, if_true]
  rw [digits, Nat.ofDigitChars_toDigits (by decide) (by decide), if_pos h]

end TerseSchema.Reference

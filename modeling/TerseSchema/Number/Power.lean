/-!
# Powers of two and ten

## Main definitions

* `pow2`, `pow10` — `2 ^ n` and `10 ^ n`, written so that they mean the same
  whatever other meanings of `^` are in use.
-/

namespace TerseSchema

/-- `2 ^ n`. -/
abbrev pow2 (n : Nat) : Nat := Nat.pow 2 n

/-- `10 ^ n`. -/
abbrev pow10 (n : Nat) : Nat := Nat.pow 10 n

theorem pow2_pos (n : Nat) : 0 < pow2 n := Nat.two_pow_pos n

theorem pow2_add (m n : Nat) : pow2 (m + n) = pow2 m * pow2 n := Nat.pow_add 2 m n

theorem pow2_le_pow2 {m n : Nat} (h : m ≤ n) : pow2 m ≤ pow2 n :=
  Nat.pow_le_pow_right (by decide) h

/-- A number is below the power of two behind its last bit. -/
theorem lt_pow2_log2 (n : Nat) : n < pow2 (n.log2 + 1) := Nat.lt_log2_self

/-- A number other than zero reaches the power of two of its last bit. -/
theorem pow2_log2_le {n : Nat} (h : n ≠ 0) : pow2 n.log2 ≤ n := Nat.log2_self_le h

end TerseSchema

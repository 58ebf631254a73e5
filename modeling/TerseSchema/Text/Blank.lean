/-!
# Blank characters

White space is the Unicode property of that name: 25 characters in ten ranges.

## Main definitions

* `isBlank` — whether a character is white space.
* `trimStart` — a text without its leading white space.
-/

namespace TerseSchema

/-- The code points with the property `White_Space`, as closed ranges. -/
def blankRanges : List (Nat × Nat) :=
  [(0x09, 0x0D), (0x20, 0x20), (0x85, 0x85), (0xA0, 0xA0), (0x1680, 0x1680),
    (0x2000, 0x200A), (0x2028, 0x2029), (0x202F, 0x202F), (0x205F, 0x205F), (0x3000, 0x3000)]

/-- Whether a character is white space. -/
def isBlank (c : Char) : Bool :=
  blankRanges.any fun (first, last) => first ≤ c.toNat && c.toNat ≤ last

/-- The ranges hold 25 code points. -/
example : (blankRanges.map fun (first, last) => last + 1 - first).sum = 25 := by decide

/-- A text without its leading white space. -/
def trimStart (text : List Char) : List Char := text.dropWhile isBlank

end TerseSchema

/-! # Blank characters and trimming

A blank is a character with the Unicode `White_Space` property: the ASCII controls tab to
carriage return, space, next line, no-break space, ogham space mark, the spaces U+2000 to
U+200A, the line and paragraph separators, the narrow no-break space, the medium mathematical
space and the ideographic space. Trimming removes blanks at both ends. -/

namespace TemporalMotif

namespace Blank

/-- Whether `c` has the Unicode `White_Space` property. -/
def isBlank (c : Char) : Bool :=
  let n := c.toNat
  (0x09 ≤ n && n ≤ 0x0D) || n == 0x20 || n == 0x85 || n == 0xA0 || n == 0x1680 ||
    (0x2000 ≤ n && n ≤ 0x200A) || n == 0x2028 || n == 0x2029 || n == 0x202F || n == 0x205F ||
    n == 0x3000

/-- The characters `cs` without their leading and trailing blanks. -/
def trim (cs : List Char) : List Char :=
  ((cs.dropWhile isBlank).reverse.dropWhile isBlank).reverse

/-- Every character that core counts as whitespace is a blank. -/
theorem isBlank_of_isWhitespace (c : Char) (h : c.isWhitespace = true) : isBlank c = true := by
  simp only [Char.isWhitespace, Bool.or_eq_true, decide_eq_true_eq] at h
  simp only [isBlank, Bool.or_eq_true, Bool.and_eq_true, beq_iff_eq, decide_eq_true_eq]
  rcases h with ((h | h) | h) | h <;> subst h <;> decide

end Blank

end TemporalMotif

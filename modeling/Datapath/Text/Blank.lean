/-!
# Datapath.Text.Blank

The characters that separate tokens: the Unicode space separators, the control
characters from tab to carriage return, the line and paragraph separators, and the
byte order mark.
-/

namespace Datapath

/-- The ranges of blank characters, by code point, in ascending order. -/
def blankRanges : List (Nat × Nat) :=
  [(0x9, 0xD), (0x20, 0x20), (0xA0, 0xA0), (0x1680, 0x1680), (0x2000, 0x200A),
    (0x2028, 0x2029), (0x202F, 0x202F), (0x205F, 0x205F), (0x3000, 0x3000),
    (0xFEFF, 0xFEFF)]

/-- Whether a character is blank. -/
def isBlank (c : Char) : Bool :=
  blankRanges.any fun (first, last) => first ≤ c.toNat && c.toNat ≤ last

end Datapath

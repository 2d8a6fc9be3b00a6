import FiniteDomain.Text.CodeRanges

/-!
# Ignorable characters

The code points with the Unicode property Default_Ignorable_Code_Point, in version 17.0: a display that does
not know what they ask for leaves them out. Beside controls and marks these are the Hangul fillers, which are
letters without a shape.
-/

namespace FiniteDomain.Text

/-- The code points with the property. -/
def ignorableRanges : CodeRanges where
  ranges := [(0xad, 0xad), (0x34f, 0x34f), (0x61c, 0x61c), (0x115f, 0x1160), (0x17b4, 0x17b5),
    (0x180b, 0x180f), (0x200b, 0x200f), (0x202a, 0x202e), (0x2060, 0x206f), (0x3164, 0x3164),
    (0xfe00, 0xfe0f), (0xfeff, 0xfeff), (0xffa0, 0xffa0), (0xfff0, 0xfff8), (0x1bca0, 0x1bca3),
    (0x1d173, 0x1d17a), (0xe0000, 0xe0fff)]
  ascends := by decide +kernel

/-- The character may be left out where it is displayed. -/
def isIgnorable (c : Char) : Bool := ignorableRanges.covers c

end FiniteDomain.Text

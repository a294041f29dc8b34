import Coverage.Text.Ranges

/-!
# Blanks

White space in the sense of Unicode: separators of lines and words, and the control characters that act as
such, among them the four information separators.
-/

namespace Coverage.Text

def blankRanges : Array (Nat × Nat) :=
  #[(0x9, 0xd), (0x1c, 0x20), (0x85, 0x85), (0xa0, 0xa0), (0x1680, 0x1680), (0x2000, 0x200a),
    (0x2028, 0x2029), (0x202f, 0x202f), (0x205f, 0x205f), (0x3000, 0x3000)]

def isBlank (c : Char) : Bool := inRanges blankRanges c

end Coverage.Text

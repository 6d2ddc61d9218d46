import WordPattern.Unicode.Table

/-! Blank characters. -/

namespace WordPattern.Unicode

/-- White space: the separators, and the controls that move to another line or column. -/
def whiteSpace : Ranges :=
  [(0x9, 0xD), (0x20, 0x20), (0x85, 0x85), (0xA0, 0xA0), (0x1680, 0x1680), (0x2000, 0x200A), (0x2028, 0x2029),
   (0x202F, 0x202F), (0x205F, 0x205F), (0x3000, 0x3000)]

def isBlank (c : Char) : Bool := whiteSpace.contains c.toNat

end WordPattern.Unicode

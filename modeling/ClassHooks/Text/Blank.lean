import ClassHooks.Text.CharRange

/-!
White space: the characters with the property of that name, in ranges.
-/
namespace ClassHooks.Text

def whiteSpace : CharRanges := [
  (0x0009, 0x000D), (0x0020, 0x0020), (0x0085, 0x0085), (0x00A0, 0x00A0), (0x1680, 0x1680),
  (0x2000, 0x200A), (0x2028, 0x2029), (0x202F, 0x202F), (0x205F, 0x205F), (0x3000, 0x3000)]

def isBlank (s : String) : Bool := s.toList.all whiteSpace.has

end ClassHooks.Text

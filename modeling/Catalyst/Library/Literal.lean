/-!
# Literals

The characters of a string literal stand in it as a list. What holds of them is evaluated on this
list, not through the bytes that the string is made of.
-/

namespace Catalyst.Library

variable {P : List Char → Prop} {cs : List Char}

theorem of_literal (h : P cs) : P (String.ofList cs).toList := by
  rwa [String.toList_ofList]

end Catalyst.Library

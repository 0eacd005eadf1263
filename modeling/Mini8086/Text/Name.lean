import Mini8086.Text.Basic

/-!
# Names

A name is a letter, `_` or `.`, followed by letters, digits, `_` and `.`.  Letters and digits are
those of ASCII.
-/

namespace Mini8086

def isNameStart (c : Char) : Bool := c.isAlpha || c == '_' || c == '.'
def isNameChar (c : Char) : Bool := c.isAlphanum || c == '_' || c == '.'

/-- whether the text is a name -/
def isName : Text → Bool
  | [] => false
  | c :: t => isNameStart c && t.all isNameChar

example : isName ".top_1".toList = true ∧ isName "1top".toList = false ∧ isName [] = false := by
  decide

end Mini8086

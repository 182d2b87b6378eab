import DesignTokens.Bundle
import DesignTokens.Diagnostic
import DesignTokens.Locate
import DesignTokens.Themes

/-!
What a pass over a document is given: the text, the options, and the declarations at the root of the
document.
-/

namespace DesignTokens

/-- The parts of a pass that can be left out: reports of literals that are no value of their type,
and swatches with hovers. -/
structure Options where
  validateLiterals : Bool
  decorateColors : Bool
  deriving DecidableEq, Repr

def Options.default : Options :=
  ⟨true, true⟩

namespace Analysis

structure Setting where
  text : List Char
  options : Options
  themes : Themes
  platforms : List String

def Setting.cursorAt (setting : Setting) (offset : Nat) : Cursor :=
  ⟨setting.text, offset⟩

end Analysis
end DesignTokens

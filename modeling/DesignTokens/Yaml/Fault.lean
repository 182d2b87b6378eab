/-!
The ways in which a text fails to be a YAML document.
-/

namespace DesignTokens
namespace Yaml

/-- Why a text is not a single YAML document. -/
inductive Fault where
  | forbiddenCharacter
  | noToken
  | tabIndentation
  | keyWithoutColon
  | misplaced
  | unclosed
  | badEscape
  | badDirective
  | badTag
  | malformedNode
  | unknownAnchor
  | manyDocuments
  | tooDeep
  | tooManyAliases
  | repeatedKey
  | badScalar
  deriving DecidableEq, Repr

/-- Whether the fault has a place in the text. That there is a second document, and that aliases are
followed too often, is said of the text as a whole. -/
def Fault.hasPlace : Fault → Bool
  | .manyDocuments => false
  | .tooManyAliases => false
  | _ => true

end Yaml
end DesignTokens

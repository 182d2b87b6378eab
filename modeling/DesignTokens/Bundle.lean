import DesignTokens.ItemPath
import DesignTokens.OrderedMap
import DesignTokens.Value

/-!
The resolved values of items, and the registry of the items that are already resolved.
-/

namespace DesignTokens

/-- What an item resolved to: one value for all themes, or a value for each theme that resolved. -/
inductive Bundle where
  | shared (type : ItemType) (value : Option Value)
  | themed (type : ItemType) (values : OrderedMap String Value)
  deriving Repr

namespace Bundle

def type : Bundle → ItemType
  | .shared type _ => type
  | .themed type _ => type

def valueFor (bundle : Bundle) (key : String) : Option Value :=
  match bundle with
  | .shared _ value => value
  | .themed _ values => values.get? key

end Bundle

abbrev Registry : Type :=
  OrderedMap String Bundle

/-- Registers an item. An item with the same path is replaced. -/
def Registry.register (registry : Registry) (path : ItemPath) (bundle : Bundle) : Registry :=
  registry.insert path.text bundle

end DesignTokens

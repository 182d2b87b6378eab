/-!
The types an item can declare.
-/

namespace DesignTokens

inductive ItemType where
  | int
  | double
  | color
  | fontWeight
  | bool
  | brightness
  deriving DecidableEq, Repr, Inhabited

namespace ItemType

/-- The word that declares the type. -/
def name : ItemType → String
  | .int => "int"
  | .double => "double"
  | .color => "color"
  | .fontWeight => "fontWeight"
  | .bool => "bool"
  | .brightness => "brightness"

def all : List ItemType :=
  [.int, .double, .color, .fontWeight, .bool, .brightness]

def ofName? (word : String) : Option ItemType :=
  all.find? (·.name == word)

def unknownMessage (word : String) : String :=
  s!"unknown item type `{word}`"

end ItemType
end DesignTokens

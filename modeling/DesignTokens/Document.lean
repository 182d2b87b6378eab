import DesignTokens.ItemType
import DesignTokens.Text.Blank
import DesignTokens.Yaml.Anchors

/-!
Documents of design tokens.

A document lists its themes and platforms and holds two trees, the shared and the themed one. A node
with a `.type` is an item, every other node is a collection. A collection keeps its members in
document order; its own list of platforms is one of the members, because it is checked where it is
written.
-/

namespace DesignTokens

namespace Keyword

def themes : String := ".themes"
def platforms : String := ".platforms"
def shared : String := ".shared"
def themed : String := ".themed"
def type : String := ".type"
def value : String := ".value"
def importKey : String := "import"
def aliasOf : String := "aliasOf"
def literal : String := "value"
def opacity : String := "withOpacity"

end Keyword

def keyText? : Yaml.Value → Option String
  | .string s => some s
  | .number n => some n.text
  | .bool b => some (if b then "true" else "false")
  | _ => none

def isReserved (key : String) : Bool :=
  key.toList.head? == some '.'

/-- The platforms that a mapping declares: a list, or a single one. A null declares nothing. -/
def platformsOf (entries : List (Yaml.Value × Yaml.Value)) : Option (List String) :=
  match Yaml.get? Keyword.platforms entries with
  | none => none
  | some .null => none
  | some (.sequence names) => some (names.map Yaml.Value.render)
  | some name => some [name.render]

structure Item where
  entries : List (Yaml.Value × Yaml.Value)
  deriving Repr, Inhabited

namespace Item

def typeMarker (item : Item) : Yaml.Value :=
  (Yaml.get? Keyword.type item.entries).getD .null

/-- The type, or the text of a marker that is none. A type may also be written as a tag on nothing.
-/
def type (item : Item) : Except String ItemType :=
  let named : Option ItemType :=
    match item.typeMarker with
    | .string word => ItemType.ofName? word
    | .tagged word .null => ItemType.ofName? word
    | _ => none
  match named with
  | some t => .ok t
  | none => .error item.typeMarker.render

/-- The entry under a string key; null counts as absent. -/
def entry? (item : Item) (key : String) : Option Yaml.Value :=
  (Yaml.get? key item.entries).filter (!·.isNull)

def hasKey (item : Item) (key : String) : Bool :=
  Yaml.hasKey key item.entries

def keys (item : Item) : List String :=
  item.entries.filterMap fun (k, _) => keyText? k

def themeKeys (item : Item) : List String :=
  item.keys.filter (!isReserved ·)

def lastKey? (item : Item) : Option String :=
  item.keys.getLast?

def platforms (item : Item) : Option (List String) :=
  platformsOf item.entries

end Item

mutual

inductive Node where
  | collection (platforms : Option (List String)) (members : List Member)
  | item (content : Item)

inductive Member where
  | platforms
  | child (key : String) (node : Node)

end

namespace Member

def child? : Member → Option (String × Node)
  | .platforms => none
  | .child key node => some (key, node)

def isPlatforms : Member → Bool
  | .platforms => true
  | .child _ _ => false

/-- How many children stand before the declaration of the platforms, if there is one. -/
def platformsPosition? (members : List Member) : Option Nat :=
  members.findIdx? isPlatforms

end Member

namespace Node

mutual

/-- The node that a value describes. What is not a mapping is a collection without members. -/
def ofValue : Yaml.Value → Node
  | .mapping entries =>
      if Yaml.hasKey Keyword.type entries then .item ⟨entries⟩
      else .collection (platformsOf entries) (membersOf entries)
  | .tagged _ v => ofValue v
  | _ => .collection none []

/-- The members that entries describe. Reserved keys other than the platforms, and keys without a
text, are passed over. -/
def membersOf : List (Yaml.Value × Yaml.Value) → List Member
  | [] => []
  | (k, v) :: entries =>
      match keyText? k with
      | none => membersOf entries
      | some key =>
          if key = Keyword.platforms then .platforms :: membersOf entries
          else if isReserved key then membersOf entries
          else .child key (ofValue v) :: membersOf entries

end

def platforms : Node → Option (List String)
  | .collection own _ => own
  | .item content => content.platforms

end Node

structure Document where
  themes : Option (List Yaml.Value)
  platforms : Option (List String)
  shared : Option Node
  themed : Option Node

namespace Document

def empty : Document :=
  ⟨none, none, none, none⟩

def subtree? (key : String) (entries : List (Yaml.Value × Yaml.Value)) : Option Node :=
  ((Yaml.get? key entries).filter (!·.isNull)).map Node.ofValue

def ofValue : Yaml.Value → Document
  | .mapping entries =>
      ⟨(Yaml.get? Keyword.themes entries).bind Yaml.Value.sequence?, platformsOf entries,
        subtree? Keyword.shared entries, subtree? Keyword.themed entries⟩
  | _ => empty

/-- Reads a document. White space alone is the empty document. -/
def ofText (text : List Char) : Except Yaml.Fault Document :=
  if (Text.trim text).isEmpty then .ok empty else (Yaml.Value.ofText text).map ofValue

end Document
end DesignTokens

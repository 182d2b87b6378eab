import DesignTokens.Yaml.Scan.Flow
import DesignTokens.Yaml.Tag

/-!
The tree of nodes of a document.

A node is written down before aliases are followed: an alias is the number of the anchor it names.
The tree of a text with a fault holds what could be read before the fault, and an unread node at
the end of every collection that was still open.
-/

namespace DesignTokens
namespace Yaml

structure Properties where
  anchor : Option Nat
  tag : Option TagText
  deriving Repr

def Properties.none : Properties :=
  ⟨.none, .none⟩

/-- A node of a document. A node that the fault of the text hides is `unread`. -/
inductive Node where
  | reference (anchor : Nat)
  | scalar (properties : Properties) (scalar : ScalarText)
  | sequence (properties : Properties) (items : List Node)
  | mapping (properties : Properties) (entries : List (Node × Node))
  | unread
  deriving Repr

namespace Node

def absent : Node :=
  .scalar .none ⟨[], true⟩

def properties : Node → Properties
  | .reference _ => .none
  | .scalar p _ => p
  | .sequence p _ => p
  | .mapping p _ => p
  | .unread => .none

def isUnread : Node → Bool
  | .unread => true
  | _ => false

mutual

def nodes : Node → List Node
  | .sequence p items => .sequence p items :: itemNodes items
  | .mapping p entries => .mapping p entries :: entryNodes entries
  | n => [n]

def itemNodes : List Node → List Node
  | [] => []
  | n :: ns => n.nodes ++ itemNodes ns

def entryNodes : List (Node × Node) → List Node
  | [] => []
  | (k, v) :: es => k.nodes ++ v.nodes ++ entryNodes es

end

/-- How many marks describe the node: one for a scalar or an alias, two for the ends of a
collection, of which one is missing if the collection was not read to its end. -/
def marks : Node → Nat
  | .reference _ => 1
  | .scalar _ _ => 1
  | .sequence _ items => if items.any isUnread then 1 else 2
  | .mapping _ entries => if entries.any fun (k, v) => k.isUnread || v.isUnread then 1 else 2
  | .unread => 0

def size (n : Node) : Nat :=
  n.nodes.foldl (fun total n => total + n.marks) 0

end Node

end Yaml
end DesignTokens

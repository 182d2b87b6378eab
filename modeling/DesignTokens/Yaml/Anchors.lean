import DesignTokens.Yaml.Draft

/-!
From the nodes of a document to its value.

An alias stands for a copy of the node it refers to. Two limits keep the copies finite: collections
are nested at most 128 deep, also through aliases, and aliases are followed at most a hundred times
for each mark of the document.

The value is built in the order of the text. A text with a fault has no value, but what is wrong
with the nodes before the fault is found first.
-/

namespace DesignTokens
namespace Yaml

/-- The document around a node: the nodes under their anchors, how often aliases may be followed,
and the fault that an unread node stands for. -/
structure Anchors where
  nodes : List (Nat × Node)
  limit : Nat
  fault : Fault

namespace Anchors

/-- The anchored nodes of a draft. Of several nodes with one number the last is found. -/
def ofDraft (draft : Draft) : Anchors :=
  ⟨(draft.root.nodes.filterMap fun n => n.properties.anchor.map (·, n)).reverse,
    draft.root.size * 100, draft.fault.getD .malformedNode⟩

abbrev Step (α : Type) : Type :=
  StateT Nat (Except Fault) α

def target (anchors : Anchors) : Node → Step Node
  | .reference number => do
      let count ← get
      if anchors.limit ≤ count then throw .tooManyAliases
      else
        set (count + 1)
        match anchors.nodes.lookup number with
        | some n => pure n
        | none => throw .unknownAnchor
  | n => pure n

def wrap (tag : Option TagText) (v : Value) : Value :=
  match tag.bind TagText.localName? with
  | some name => .tagged name v
  | none => v

def scalarValue (tag : Option TagText) (s : ScalarText) : Except Fault Value :=
  match tag.filter (!·.isLocal) with
  | some tag =>
      match tag.chars? with
      | some name => Scalar.tagged (String.ofList name) s.text
      | none => .ok (.string (String.ofList s.text))
  | none => if s.isPlain then Scalar.plain s.text else .ok (.string (String.ofList s.text))

/-- Builds the entries of a mapping behind those of `before`. A key is compared with the keys before
it as soon as it is known. -/
def entries (build : Node → Step Value) :
    List (Value × Value) → List (Node × Node) → Step (List (Value × Value))
  | before, [] => pure before
  | before, (k, v) :: rest => do
      let key ← build k
      if isTaken key before then throw .repeatedKey
      else
        let value ← build v
        entries build (before ++ [(key, value)]) rest

def value (anchors : Anchors) : Nat → Node → Step Value
  | 0, n => do
      match ← anchors.target n with
      | .scalar p s => pure (wrap p.tag (← scalarValue p.tag s))
      | .unread => throw anchors.fault
      | _ => throw .tooDeep
  | depth + 1, n => do
      match ← anchors.target n with
      | .scalar p s => pure (wrap p.tag (← scalarValue p.tag s))
      | .sequence p items => pure (wrap p.tag (.sequence (← items.mapM (value anchors depth))))
      | .mapping p es => pure (wrap p.tag (.mapping (← entries (value anchors depth) [] es)))
      | .unread => throw anchors.fault
      | .reference _ => throw .unknownAnchor

end Anchors

def maxDepth : Nat :=
  128

def Draft.value (draft : Draft) : Except Fault Value := do
  let v ← ((Anchors.ofDraft draft).value maxDepth draft.root).run' 0
  match draft.fault with
  | some fault => throw fault
  | none => pure v

/-- The value of a text. A text without a document denotes null. -/
def Value.ofText (text : List Char) : Except Fault Value :=
  match Draft.ofTokens? (.ofText text) with
  | none => pure .null
  | some draft => draft.value

end Yaml
end DesignTokens

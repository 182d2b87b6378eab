import DesignTokens.Yaml.Node
import DesignTokens.Yaml.Scalar
import DesignTokens.Yaml.Token

/-!
From the tokens of a document to its nodes.

The reader goes down the tokens once. Anchors are numbered as they appear. The number of an anchor
is how many different names came before it, so a name that is used again takes a new number, and a
later anchor may take the same one: then the later node stands for both.

The reader stops at the first fault, that of the tokens or its own, and the nodes that were open
then end with an unread one.

Readers of nodes take a bound on the number of rounds. At most two of them are entered for each
token, so three times the number of tokens is enough.
-/

namespace DesignTokens
namespace Yaml

/-- What the reader of a document keeps: the tokens left and the fault behind them, the names of the
anchors with their numbers, and the meaning of the tag handles. -/
structure NodeReader where
  tokens : List Token
  fault : Option Fault
  anchors : List (String × Nat)
  handles : List (String × TagText)

namespace NodeReader

abbrev Step (α : Type) : Type :=
  StateM NodeReader α

def isStopped (r : NodeReader) : Bool :=
  r.tokens.isEmpty && r.fault.isSome

def stop (fault : Fault) : Step Unit :=
  modify fun r => if r.isStopped then r else { r with tokens := [], fault := some fault }

def fail (fault : Fault) : Step Node := do
  stop fault
  pure .unread

def peek : Step (Option Token) := do
  pure (← get).tokens.head?

def skip : Step Unit :=
  modify fun r => { r with tokens := r.tokens.tail }

def nextIs (ts : List Token) : Step Bool := do
  pure ((← peek).any (ts.contains ·))

def expect (t : Token) : Step Unit := do
  if ← nextIs [t] then skip else stop .malformedNode

/-- The end of a collection: nothing, or `unread` if the reader has stopped inside it. -/
def ending {α : Type} (unread : α) : Step (List α) := do
  pure (if (← get).isStopped then [unread] else [])

def unreadEntry : Node × Node :=
  (.unread, .unread)

def omitted : Step Node := do
  pure (if (← get).isStopped then .unread else .absent)

def addAnchor (name : String) : Step Nat := do
  let r ← get
  let number := r.anchors.length
  set { r with anchors := (name, number) :: r.anchors.filter (·.1 != name) }
  pure number

def anchor : Step (Option String) := do
  match ← peek with
  | some (.anchorName name) =>
      skip
      pure (some name)
  | _ => pure none

def tag : Step (Option TagText) := do
  match ← peek with
  | some (.tag handle suffix) =>
      skip
      if handle.isEmpty then pure (some suffix)
      else
        match (← get).handles.lookup handle with
        | some replacement => pure (some (replacement ++ suffix))
        | none =>
            stop .badTag
            pure none
  | _ => pure none

def properties : Step Properties := do
  let first ← anchor
  let tag ← tag
  -- An anchor may stand on either side of the tag.
  let name ← if first.isSome then pure first else anchor
  match name with
  | some name => pure ⟨some (← addAnchor name), tag⟩
  | none => pure ⟨none, tag⟩

def announced (p : Properties) : Step Node := do
  if !(← get).isStopped && (p.anchor.isSome || p.tag.isSome) then pure (.scalar p ⟨[], true⟩)
  else fail .malformedNode

def reference (name : String) : Step Node := do
  match (← get).anchors.lookup name with
  | some number => pure (.reference number)
  | none => fail .unknownAnchor

def optional (ends : List Token) (read : Step Node) : Step Node := do
  if ← nextIs ends then pure .absent else read

def valuePart (ends : List Token) (read : Step Node) : Step Node := do
  if ← nextIs [.value] then
    skip
    optional ends read
  else omitted

mutual

/-- Reads a node. Block collections are nodes only if `block`, and a sequence without an indentation
of its own only if `compact`. -/
def node (block compact : Bool) : Nat → Step Node
  | 0 => fail .malformedNode
  | rounds + 1 => do
      match ← peek with
      | some (.aliasName name) =>
          skip
          reference name
      | _ =>
          let p ← properties
          match ← peek with
          | some (.scalar s) =>
              skip
              pure (.scalar p s)
          | some .flowSequenceStart =>
              skip
              pure (.sequence p (← flowItems true rounds))
          | some .flowMappingStart =>
              skip
              pure (.mapping p (← flowEntries true rounds))
          | next =>
              if compact && next == some .blockEntry then
                pure (.sequence p (← blockItems true rounds))
              else if block && next == some .blockSequenceStart then
                skip
                pure (.sequence p (← blockItems false rounds))
              else if block && next == some .blockMappingStart then
                skip
                pure (.mapping p (← blockEntries rounds))
              else announced p

def blockItems (compact : Bool) : Nat → Step (List Node)
  | 0 => do pure [← fail .malformedNode]
  | rounds + 1 => do
      if ← nextIs [.blockEntry] then
        skip
        let ends := [.blockEntry, .blockEnd] ++ if compact then [.key, .value] else []
        let item ← optional ends (node true false rounds)
        pure (item :: (← blockItems compact rounds))
      else
        if !compact then expect .blockEnd
        ending .unread

def blockEntries : Nat → Step (List (Node × Node))
  | 0 => do pure [(← fail .malformedNode, .unread)]
  | rounds + 1 => do
      if ← nextIs [.key] then
        skip
        let ends := [.key, .value, .blockEnd]
        let key ← optional ends (node true true rounds)
        let value ← valuePart ends (node true true rounds)
        pure ((key, value) :: (← blockEntries rounds))
      else
        expect .blockEnd
        ending unreadEntry

/-- Reads the items of a sequence in brackets, with the closing bracket. A key among them begins a
mapping with one entry. -/
def flowItems (first : Bool) : Nat → Step (List Node)
  | 0 => do pure [← fail .malformedNode]
  | rounds + 1 => do
      if !first && !(← nextIs [.flowSequenceEnd]) then expect .flowEntry
      if (← get).isStopped then ending .unread
      else if ← nextIs [.flowSequenceEnd] then
        skip
        pure []
      else if ← nextIs [.key] then
        skip
        let entry ← flowPair rounds
        let entries := entry :: (← ending unreadEntry)
        pure (.mapping .none entries :: (← flowItems false rounds))
      else
        let item ← node false false rounds
        pure (item :: (← flowItems false rounds))

/-- Reads the only entry of a mapping among the items of a sequence. Where the key is absent, the
token that shows it is passed over. -/
def flowPair : Nat → Step (Node × Node)
  | 0 => do pure (← fail .malformedNode, .unread)
  | rounds + 1 => do
      let ends := [.flowEntry, .flowSequenceEnd]
      if ← nextIs (.value :: ends) then
        skip
        pure (.absent, ← valuePart ends (node false false rounds))
      else
        let key ← node false false rounds
        pure (key, ← valuePart ends (node false false rounds))

def flowEntries (first : Bool) : Nat → Step (List (Node × Node))
  | 0 => do pure [(← fail .malformedNode, .unread)]
  | rounds + 1 => do
      if !first && !(← nextIs [.flowMappingEnd]) then expect .flowEntry
      if (← get).isStopped then ending unreadEntry
      else if ← nextIs [.flowMappingEnd] then
        skip
        pure []
      else if ← nextIs [.key] then
        skip
        let ends := [.flowEntry, .flowMappingEnd]
        let key ← optional (.value :: ends) (node false false rounds)
        let value ← valuePart ends (node false false rounds)
        pure ((key, value) :: (← flowEntries false rounds))
      else
        let key ← node false false rounds
        let value ← omitted
        pure ((key, value) :: (← flowEntries false rounds))

end

def coreHandles : List (String × TagText) :=
  [("!", .ofChars ['!']), ("!!", .ofChars (Scalar.core "").toList)]

/-- Takes the directives before a document. There is at most one version, which is 1.1 or 1.2, and a
handle is declared at most once. -/
def directives : Bool → List (String × TagText) → List Token →
    Except Fault (List (String × TagText) × List Token)
  | seenVersion, handles, .directive (.version major minor) :: ts =>
      if seenVersion || major != 1 || (minor != 1 && minor != 2) then .error .badDirective
      else directives true handles ts
  | seenVersion, handles, .directive (.tagHandle handle replacement) :: ts =>
      if handles.any (·.1 == handle) then .error .badDirective
      else directives seenVersion (handles ++ [(handle, replacement)]) ts
  | _, handles, ts => .ok (handles, ts)

def isOpening : Token → Bool
  | .directive _ => true
  | .documentStart => true
  | _ => false

def root : Step Node := do
  node true false (3 * (← get).tokens.length + 3)

/-- Reads a document that begins with a mark: directives, the mark, and a root unless the document
ends at once. -/
def markedRoot : Step Node := do
  match directives false [] (← get).tokens with
  | .ok (handles, .documentStart :: ts) =>
      modify fun r => { r with tokens := ts, handles := handles ++ coreHandles }
      if ts.head?.all fun t => isOpening t || t == .documentEnd then omitted else root
  | .ok (_, ts) =>
      modify fun r => { r with tokens := ts }
      fail .malformedNode
  | .error fault => fail fault

def faultBehind (r : NodeReader) : Option Fault :=
  if r.isStopped then r.fault
  else if (r.tokens.dropWhile (· == .documentEnd)).isEmpty && r.fault.isNone then none
  else some .manyDocuments

end NodeReader

/-- The root of a text as far as it could be read, and the fault of the text. -/
structure Draft where
  root : Node
  fault : Option Fault
  deriving Repr

def Draft.ofTokens? (list : TokenList) : Option Draft :=
  match list.tokens with
  | [] => list.fault.map fun fault => ⟨.unread, some fault⟩
  | t :: ts =>
      let read := if NodeReader.isOpening t then NodeReader.markedRoot else NodeReader.root
      let (root, r) := read.run ⟨t :: ts, list.fault, [], NodeReader.coreHandles⟩
      some ⟨root, r.faultBehind⟩

end Yaml
end DesignTokens

import DesignTokens.Proofs.Problems
import Mathlib.Data.List.Infix

/-!
Documents in block layout.

A block document is written one key a line, deeper levels indented further, with lists of platforms
on the line of their key.  Its text and its value are computed side by side from the same tree, and
so is what an analysis should mark, and where: `Node.marks` places every `Problem` and every hover at
the offset at which the line or the word in question is written.
-/

namespace DesignTokens
namespace Block

/-! ## Words and lines -/

def separators : List Char :=
  [' ', '\t', '\n', '\r', ':', ',', '.', '[', ']', '\x7b', '\x7d', '#', '\x27', '\x22']

/-- Whether a word is a name, as themes, platforms and children have them. -/
def isName (word : String) : Bool :=
  !word.toList.isEmpty && word.toList.all (· ∉ separators)

/-- The elements of a list on one line, up to the closing bracket. -/
def elements : List String → List Char
  | [] => [']']
  | [name] => name.toList ++ [']']
  | name :: names => name.toList ++ (',' :: ' ' :: elements names)

def flowList (names : List String) : List Char :=
  ' ' :: '[' :: elements names

/-- The names of a list with the places where they are written, the first one at `start`. -/
def elementPlaces (start : Nat) : List String → List (String × Span)
  | [] => []
  | name :: names =>
      let stop := start + Text.bytes name.toList
      (name, ⟨start, stop⟩) :: elementPlaces (stop + 2) names

/-- A line: its indentation, its key, and what stands behind the colon. -/
structure Line where
  indent : Nat
  key : String
  rest : List Char

namespace Line

def text (line : Line) : List Char :=
  List.replicate line.indent ' ' ++ (line.key.toList ++ ':' :: (line.rest ++ ['\n']))

def keyPlace (line : Line) (start : Nat) : Span :=
  ⟨start + line.indent, start + line.indent + Text.bytes line.key.toList⟩

end Line

def textOf (lines : List Line) : List Char :=
  lines.flatMap Line.text

/-- The offset behind lines of which the first begins at `start`. -/
def behind (start : Nat) (lines : List Line) : Nat :=
  start + Text.bytes (textOf lines)

structure Layout where
  width : Nat → Nat
  deeper : ∀ level, width level < width (level + 1)

/-! ## The tree -/

/-- A line of an item.  What is written behind the key of an entry stands for some value. -/
inductive ItemLine where
  | type (word : String)
  | platforms (names : List String)
  | entry (key : String) (written : List Char) (value : Yaml.Value)

namespace ItemLine

def key : ItemLine → String
  | .type _ => Keyword.type
  | .platforms _ => Keyword.platforms
  | .entry key _ _ => key

def line (indent : Nat) : ItemLine → Line
  | .type word => ⟨indent, Keyword.type, ' ' :: word.toList⟩
  | .platforms names => ⟨indent, Keyword.platforms, flowList names⟩
  | .entry key written _ => ⟨indent, key, ' ' :: written⟩

def pair : ItemLine → Yaml.Value × Yaml.Value
  | .type word => (.string Keyword.type, .string word)
  | .platforms names => (.string Keyword.platforms, .sequence (names.map .string))
  | .entry key _ value => (.string key, value)

def isValid : ItemLine → Bool
  | .type word => isName word
  | .platforms names => names.all isName
  | .entry key written _ => (isName key || key == Keyword.value) && '\n' ∉ written

end ItemLine

mutual

/-- An item, or a collection with its members in the order in which they are written. -/
inductive Node where
  | item (lines : List ItemLine)
  | collection (members : List Member)

inductive Member where
  | platforms (names : List String)
  | child (key : String) (node : Node)

end

namespace Member

def key : Member → String
  | .platforms _ => Keyword.platforms
  | .child key _ => key

def own? : List Member → Option (List String)
  | [] => none
  | .platforms names :: _ => some names
  | .child _ _ :: members => own? members

end Member

def platformsLine (indent : Nat) (names : List String) : Line :=
  ⟨indent, Keyword.platforms, flowList names⟩

def themesLine (indent : Nat) (names : List String) : Line :=
  ⟨indent, Keyword.themes, flowList names⟩

def childLine (indent : Nat) (key : String) : Line :=
  ⟨indent, key, []⟩

namespace Node

mutual

def lines (layout : Layout) (level : Nat) : Node → List Line
  | .item content => content.map (ItemLine.line (layout.width level))
  | .collection members => memberLines layout level members

def memberLines (layout : Layout) (level : Nat) : List Member → List Line
  | [] => []
  | .platforms names :: members =>
      platformsLine (layout.width level) names :: memberLines layout level members
  | .child key node :: members =>
      childLine (layout.width level) key ::
        (node.lines layout (level + 1) ++ memberLines layout level members)

end

mutual

/-- The value of a node.  A collection without members is written as nothing. -/
def value : Node → Yaml.Value
  | .item content => .mapping (content.map ItemLine.pair)
  | .collection [] => .null
  | .collection (member :: members) => .mapping (memberPairs (member :: members))

def memberPairs : List Member → List (Yaml.Value × Yaml.Value)
  | [] => []
  | .platforms names :: members =>
      (.string Keyword.platforms, .sequence (names.map .string)) :: memberPairs members
  | .child key node :: members => (.string key, node.value) :: memberPairs members

end

mutual

/-- Whether the keys of every mapping are distinct and every item has a type. -/
def isValid : Node → Bool
  | .item content =>
      content.all ItemLine.isValid && (content.map ItemLine.key).Nodup &&
        Keyword.type ∈ content.map ItemLine.key
  | .collection members => (members.map Member.key).Nodup && areValid members

def areValid : List Member → Bool
  | [] => true
  | .platforms names :: members => names.all isName && areValid members
  | .child key node :: members => isName key && node.isValid && areValid members

end

end Node

/-! ## What is marked, and where -/

/-- The problems of a document other than those of its values, and its hovers by place and path. -/
structure Marks where
  problems : List Diagnostic
  hovers : List (Span × String)

namespace Marks

def empty : Marks :=
  ⟨[], []⟩

def append (m n : Marks) : Marks :=
  ⟨m.problems ++ n.problems, m.hovers ++ n.hovers⟩

instance : Append Marks :=
  ⟨append⟩

def isStructural (d : Diagnostic) : Bool :=
  d.code ∉ [some .missingImport, some .importType, some .opacityRange, some .invalidLiteral]

def of (diagnostics : List Diagnostic) (hovers : List Hover) : Marks :=
  ⟨diagnostics.filter isStructural, hovers.map fun hover => (hover.span, hover.path)⟩

end Marks

open Analysis

def placedProblems (setting : Setting) (inherited : List String) (path : ItemPath)
    (places : List (String × Span)) : List Diagnostic :=
  places.flatMap fun (name, span) =>
    ((platformProblem? setting.platforms inherited path name).map (·.placedAt span)).toList

/-- The problems of a list of platforms whose key is written at `key`. -/
def listProblems (setting : Setting) (inherited : List String) (path : ItemPath) (key : Span)
    (names : List String) : List Diagnostic :=
  placedProblems setting inherited path (elementPlaces (key.stop + 3) names)

/-- The lines of an item with the places of their keys. -/
def itemPlaces (indent start : Nat) : List ItemLine → List (ItemLine × Span)
  | [] => []
  | line :: lines =>
      (line, (line.line indent).keyPlace start) ::
        itemPlaces indent (start + Text.bytes (line.line indent).text) lines

namespace ItemLine

def platformProblems (setting : Setting) (inherited : List String) (path : ItemPath) :
    ItemLine × Span → List Diagnostic
  | (.platforms names, place) => listProblems setting inherited path place names
  | _ => []

def themeProblems (setting : Setting) : ItemLine × Span → List Diagnostic
  | (.entry key _ _, place) =>
      if isReserved key || setting.themes.contains key then []
      else [(Problem.unknownTheme key).placedAt place]
  | _ => []

/-- The problem of a type that is none; or else that of a shared item without a value. -/
def typeProblems (c : ItemContext) : ItemLine × Span → List Diagnostic
  | (.type word, place) =>
      match ItemType.ofName? word with
      | none =>
          let start := place.stop + 2
          [(Problem.unknownType word).placedAt ⟨start, start + Text.bytes word.toList⟩]
      | some _ =>
          if c.path.isShared && (c.item.entry? Keyword.value).isNone then
            [(Problem.missingValue c.path).placedAt c.key]
          else []
  | _ => []

end ItemLine

/-- What is marked of an item whose key is written at the place of the context. -/
def itemMarks (c : ItemContext) (inherited : List String) (places : List (ItemLine × Span)) :
    Marks :=
  ⟨places.flatMap (ItemLine.platformProblems c.setting inherited c.path) ++
      (if c.path.isShared then []
        else ((defaultProblem? c.setting.themes c.item).map (·.placedAt c.key)).toList ++
          places.flatMap (ItemLine.themeProblems c.setting)) ++
      places.flatMap (ItemLine.typeProblems c),
    if c.item.type = .ok .color ∧ c.setting.options.decorateColors ∧ ¬c.path.isShared then
      [(c.key, c.path.text)]
    else []⟩

def itemOf (lines : List ItemLine) : Item :=
  ⟨lines.map ItemLine.pair⟩

namespace Node

mutual

/-- What is marked of a node whose key is written at `key` and whose lines begin at `start`. -/
def marks (setting : Setting) (layout : Layout) (level : Nat) (inherited : List String)
    (path : ItemPath) (key : Span) (start : Nat) : Node → Marks
  | .item content =>
      itemMarks ⟨setting, .empty, itemOf content, path, key⟩ inherited
        (itemPlaces (layout.width level) start content)
  | .collection members =>
      memberMarks setting layout level (Member.own? members) inherited path start members

def memberMarks (setting : Setting) (layout : Layout) (level : Nat) (own : Option (List String))
    (inherited : List String) (path : ItemPath) (start : Nat) : List Member → Marks
  | [] => .empty
  | .platforms names :: members =>
      let line := platformsLine (layout.width level) names
      ⟨listProblems setting inherited path (line.keyPlace start) names, []⟩ ++
        memberMarks setting layout level own inherited path (behind start [line]) members
  | .child key node :: members =>
      let line := childLine (layout.width level) key
      let below := behind start [line]
      node.marks setting layout (level + 1) (own.getD inherited) (path.child key)
          (line.keyPlace start) below ++
        memberMarks setting layout level own inherited path
          (behind below (node.lines layout (level + 1))) members

end

/-! ## Lists that are passed over

An empty list of platforms is not searched, so the search for the next key begins before it.  If that
key is a list of platforms too, the empty one is taken for it, and the first name of the list is
found in the key of the list if it occurs there. -/

def occursInKey (names : List String) : Bool :=
  names.head?.any fun name => name.toList <:+: Keyword.platforms.toList

mutual

/-- Whether the last line of a node is an empty list of platforms that has been passed over. -/
def endsPending : Node → Bool
  | .item _ => false
  | .collection members => endPending false members

def endPending (pending : Bool) : List Member → Bool
  | [] => pending
  | .platforms names :: members => endPending names.isEmpty members
  | .child _ node :: members => endPending node.endsPending members

end

mutual

/-- Whether no list of platforms has its first name taken from its own key. -/
def isClear : Node → Bool
  | .item _ => true
  | .collection members => areClear false members

def areClear (pending : Bool) : List Member → Bool
  | [] => true
  | .platforms names :: members =>
      !(pending && occursInKey names) && areClear names.isEmpty members
  | .child _ node :: members => node.isClear && areClear node.endsPending members

end

end Node

/-! ## Documents -/

/-- A document without the platforms at its root. -/
structure Shape where
  themes : List String
  shared : Option Node
  themed : Option Node

namespace Shape

variable (shape : Shape) (layout : Layout) (platforms : Option (List String))

def sectionLines (key : String) (node : Option Node) : List Line :=
  match node with
  | none => []
  | some node => childLine (layout.width 0) key :: node.lines layout 1

def headLines : List Line :=
  themesLine (layout.width 0) shape.themes ::
    platforms.toList.map (platformsLine (layout.width 0))

def lines : List Line :=
  shape.headLines layout platforms ++
    (sectionLines layout Keyword.shared shape.shared ++
      sectionLines layout Keyword.themed shape.themed)

def text : List Char :=
  textOf (shape.lines layout platforms)

def value : Yaml.Value :=
  .mapping ((.string Keyword.themes, .sequence (shape.themes.map .string)) ::
    ((platforms.map fun names =>
        (.string Keyword.platforms, .sequence (names.map .string))).toList ++
      ((shape.shared.map fun node => (.string Keyword.shared, node.value)).toList ++
        (shape.themed.map fun node => (.string Keyword.themed, node.value)).toList)))

def isValid : Bool :=
  shape.themes.all isName && shape.shared.all Node.isValid && shape.themed.all Node.isValid

/-- The themed section.  Without a theme it is passed over. -/
def visited : Option Node :=
  if shape.themes.isEmpty then none else shape.themed

/-- Whether every list of platforms that a pass comes to is found where it is written. -/
def isClear : Bool :=
  shape.shared.all Node.isClear && shape.visited.all Node.isClear

def duplicateThemes (seen : List (String × Span)) : List (String × Span) → List Diagnostic
  | [] => []
  | (name, place) :: places =>
      match seen.lookup name with
      | some first =>
          (Problem.duplicateTheme name first).placedAt place :: duplicateThemes seen places
      | none => duplicateThemes ((name, place) :: seen) places

def sectionMarks (setting : Setting) (key : String) (path : ItemPath) (start : Nat)
    (node : Option Node) : Marks :=
  match node with
  | none => .empty
  | some node =>
      let line := childLine (layout.width 0) key
      node.marks setting layout 1 setting.platforms path (line.keyPlace start) (behind start [line])

def registered : Themes :=
  ⟨.ofList (shape.themes.map (·, none))⟩

def setting (options : Options) : Setting :=
  ⟨shape.text layout platforms, options, shape.registered, platforms.getD []⟩

def marks (options : Options) : Marks :=
  let setting := shape.setting layout platforms options
  let themesKey := (themesLine (layout.width 0) shape.themes).keyPlace 0
  let start := behind 0 (shape.headLines layout platforms)
  let between := behind start (sectionLines layout Keyword.shared shape.shared)
  ⟨duplicateThemes [] (elementPlaces (themesKey.stop + 3) shape.themes), []⟩ ++
    (sectionMarks layout setting Keyword.shared .shared start shape.shared ++
      sectionMarks layout setting Keyword.themed .themed between shape.visited)

/-- The analysis of the text, if the text is read as the value. -/
def analysis (options : Options) : Except LocateError Analysis :=
  ofDocument options (shape.text layout platforms) (.ofValue (shape.value platforms))

end Shape
end Block
end DesignTokens

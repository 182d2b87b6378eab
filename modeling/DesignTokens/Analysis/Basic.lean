import DesignTokens.Analysis.Walk
import DesignTokens.Text.LineIndex

/-!
The analysis of a document.

A pass reads the themes, then walks the shared section and, if there is a theme, the themed one. It
needs the text only to find places and to see how numbers are written.
-/

namespace DesignTokens

inductive AnalysisError where
  | yaml (fault : Yaml.Fault)
  | locate (error : LocateError)
  deriving DecidableEq, Repr

def AnalysisError.message : AnalysisError → String
  | .yaml _ => "invalid YAML"
  | .locate error => "internal error: " ++ error.message

structure Analysis where
  diagnostics : List Diagnostic
  decorations : Decorations
  hovers : List Hover
  registry : Registry
  themes : Themes
  lineIndex : LineIndex

namespace Analysis

def hasErrors (a : Analysis) : Bool :=
  a.diagnostics.any (·.isError)

/-- The hover whose key stands at an offset. -/
def hoverAt? (a : Analysis) (offset : Nat) : Option Hover :=
  a.hovers.find? (·.span.contains offset)

def hoverAtPosition? (a : Analysis) (position : Position) : Option Hover :=
  (a.lineIndex.offset? position).bind a.hoverAt?

def readThemes (text : List Char) (document : Document) :
    Except LocateError (Themes × List Diagnostic) :=
  match document.themes with
  | none => .ok (Themes.empty, [])
  | some values => do
      let anchor ← Cursor.key ⟨text, 0⟩ Keyword.themes
      pure (Themes.build text anchor values)

def walkSection (setting : Setting) (key : String) (path : ItemPath) (node : Option Node)
    (f : Findings) : Except LocateError Findings :=
  match node with
  | none => .ok f
  | some node => do
      let span ← (setting.cursorAt 0).key key
      let (_, f) ← walk setting setting.platforms path span node f
      pure f

/-- The analysis of a document that was read from a text. -/
def ofDocument (options : Options) (text : List Char) (document : Document) :
    Except LocateError Analysis := do
  let (themes, diagnostics) ← readThemes text document
  let setting : Setting := ⟨text, options, themes, document.platforms.getD []⟩
  let themed := if themes.isEmpty then none else document.themed
  let f := Findings.empty.addDiagnostics diagnostics
  let f ← walkSection setting Keyword.shared .shared document.shared f
  let f ← walkSection setting Keyword.themed .themed themed f
  pure ⟨f.diagnostics, f.decorations, f.hovers, f.registry, themes, LineIndex.ofText text⟩

def ofText (options : Options) (text : List Char) : Except AnalysisError Analysis :=
  match Document.ofText text with
  | .error fault => .error (.yaml fault)
  | .ok document =>
      match ofDocument options text document with
      | .error error => .error (.locate error)
      | .ok a => .ok a

end Analysis
end DesignTokens

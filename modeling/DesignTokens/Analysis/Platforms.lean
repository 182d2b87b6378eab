import DesignTokens.Analysis.Setting
import DesignTokens.ItemPath

/-!
The platforms of a node.

A node may name only platforms of the document, and only those that the nearest collection around it
with a list of its own has kept.
-/

namespace DesignTokens
namespace Analysis
namespace Platforms

def unknown (platform : String) (span : Span) : Diagnostic :=
  .errorAt .unknownPlatform
    s!"Unknown platform: '{platform}'. All the platforms must be defined in the '.platforms' array."
    span "not declared at the root"

def hidden (platform : String) (path : ItemPath) (span : Span) : Diagnostic :=
  .errorAt .hiddenPlatform
    (s!"The platform '{platform}' is not accessible in '{path.text}'. "
      ++ "A parent collection must have filtered it out. "
      ++ s!"Verify '{platform}' was included in all the parent collections '.platforms' list.")
    span "filtered out by a parent"

def check? (setting : Setting) (inherited : List String) (path : ItemPath) (platform : String)
    (span : Span) : Option Diagnostic :=
  if platform ∉ setting.platforms then some (unknown platform span)
  else if platform ∉ inherited then some (hidden platform path span)
  else none

/-- Checks platforms one after another, each searched behind the one before; what is not found is
placed at `key`. -/
def checkFrom (setting : Setting) (inherited : List String) (path : ItemPath) (key : Span) :
    Cursor → List String → Cursor × List Diagnostic
  | cursor, [] => (cursor, [])
  | cursor, platform :: platforms =>
      let span := (cursor.literal? platform).getD key
      let (last, diagnostics) :=
        checkFrom setting inherited path key (cursor.advanceTo span.stop) platforms
      (last, (check? setting inherited path platform span).toList ++ diagnostics)

/-- Checks the list that a node declares behind the cursor. The cursor given back stands behind what
was found. -/
def check (setting : Setting) (own inherited : List String) (path : ItemPath) (cursor : Cursor) :
    Except LocateError (Cursor × List Diagnostic) :=
  if own.isEmpty then .ok (cursor, [])
  else do
    let key ← cursor.key Keyword.platforms
    pure (checkFrom setting inherited path key (cursor.advanceTo key.stop) own)

end Platforms
end Analysis
end DesignTokens

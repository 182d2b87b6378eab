import DesignTokens.Color
import DesignTokens.OrderedMap
import DesignTokens.Text.Span

/-!
What an editor shows beside colors: a swatch at every written color, a row of swatches at every
themed color item, and a table of colors when the mouse rests on its key.
-/

namespace DesignTokens

structure ThemedColor where
  theme : String
  color : Option Color
  deriving DecidableEq, Repr

structure Hover where
  span : Span
  path : String
  colors : List ThemedColor
  deriving DecidableEq, Repr

namespace Hover

/-- The colors joined by commas. A theme without a color leaves its place empty, so different rows
have different keys. -/
def rowKey (colors : List ThemedColor) : String :=
  ",".intercalate (colors.map fun c => (c.color.map Color.text).getD "")

def markdownRow (c : ThemedColor) : String :=
  let color := match c.color with
    | some color => "`" ++ color.css ++ "`"
    | none => "_unresolved_"
  "| " ++ c.theme ++ " | " ++ color ++ " |\n"

def markdown (hover : Hover) : String :=
  "**" ++ hover.path ++ "**\n\n| theme | color |\n|---|---|\n"
    ++ String.join (hover.colors.map markdownRow)

end Hover

/-- The places to decorate, grouped by what is shown there. -/
structure Decorations where
  single : OrderedMap Color (List Span)
  multi : OrderedMap String (List Span)
  deriving Repr

namespace Decorations

def empty : Decorations :=
  ⟨.empty, .empty⟩

def isEmpty (d : Decorations) : Bool :=
  d.single.isEmpty && d.multi.isEmpty

def addSingle (d : Decorations) (color : Color) (span : Span) : Decorations :=
  { d with single := d.single.extend color [span] }

def addMulti (d : Decorations) (key : String) (span : Span) : Decorations :=
  { d with multi := d.multi.extend key [span] }

end Decorations
end DesignTokens

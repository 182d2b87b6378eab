import DesignTokens.Document
import DesignTokens.Locate
import DesignTokens.Value

/-!
Literals as values of a type.

YAML reads the digits of a color such as `10e00000` as a number and forgets how it was written, so
numbers are read again from the text.
-/

namespace DesignTokens
namespace Analysis

/-- A literal as it is written behind the key at `origin`, if it is a number and can be found there.
-/
def literalText (text : List Char) (literal : Yaml.Value) (origin : Option Span) : String :=
  let written : Option (List Char) := do
    let origin ← origin.filter fun _ => literal.number?.isSome
    let span ← Locate.scalar? text origin
    Text.slice span.start span.stop text
  (written.map String.ofList).getD literal.render

def padEight (n : Nat) : String :=
  let digits := Decimal.digitText n
  Decimal.zeros (8 - digits.length) ++ digits

/-- A literal as a color. A number is read as it is written, or else as its digits. -/
def castColor (literal : Yaml.Value) (written : String) : Option Color :=
  match literal with
  | .string hex => Color.ofText? hex
  | .number n =>
      (Color.ofText? written).orElse fun _ => n.nat?.bind fun n => Color.ofText? (padEight n)
  | _ => none

def castFontWeight (literal : Yaml.Value) : Option FontWeight :=
  match literal with
  | .number n => n.int?.bind FontWeight.ofInt?
  | .string word => FontWeight.ofText? word
  | _ => none

def castLiteral (literal : Yaml.Value) (written : String) : ItemType → Option Value
  | .int => (literal.number?.bind Yaml.Number.int?).map .int
  | .double => literal.number?.map fun n => .double n.toFloat
  | .color => (castColor literal written).map .color
  | .fontWeight => (castFontWeight literal).map .fontWeight
  | .bool => literal.bool?.map .bool
  | .brightness => (literal.string?.bind Brightness.ofText?).map .brightness

end Analysis
end DesignTokens

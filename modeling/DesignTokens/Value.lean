import DesignTokens.Color
import DesignTokens.ItemType

/-!
The values that items resolve to.
-/

namespace DesignTokens

structure InvalidLiteral where
  literal : String
  expected : ItemType
  deriving DecidableEq, Repr

def InvalidLiteral.message (e : InvalidLiteral) : String :=
  s!"`{e.literal}` is not a valid `{e.expected.name}`"

/-- A font weight is one of the nine hundreds up to 900. -/
structure FontWeight where
  weight : Nat
  isHundred : 100 ≤ weight ∧ weight ≤ 900 ∧ weight % 100 = 0
  deriving DecidableEq, Repr

namespace FontWeight

def normal : FontWeight :=
  ⟨400, by decide⟩

def bold : FontWeight :=
  ⟨700, by decide⟩

def ofInt? (n : Int) : Option FontWeight :=
  if h : 100 ≤ n.toNat ∧ n.toNat ≤ 900 ∧ n.toNat % 100 = 0 then some ⟨n.toNat, h⟩ else none

def ofInt (n : Int) : Except InvalidLiteral FontWeight :=
  match ofInt? n with
  | some w => .ok w
  | none => .error ⟨toString n, .fontWeight⟩

/-- Reads a weight: one of two words, or `w` and an integer of 64 bits. -/
def ofText? (text : String) : Option FontWeight :=
  if text = "normal" then some normal
  else if text = "bold" then some bold
  else
    match text.toList with
    | 'w' :: digits => (Decimal.readSigned 64 10 digits).toOption.bind ofInt?
    | _ => none

def ofText (text : String) : Except InvalidLiteral FontWeight :=
  match ofText? text with
  | some w => .ok w
  | none => .error ⟨text, .fontWeight⟩

def text (w : FontWeight) : String :=
  "w" ++ toString w.weight

end FontWeight

inductive Brightness where
  | light
  | dark
  deriving DecidableEq, Repr

namespace Brightness

def text : Brightness → String
  | .light => "light"
  | .dark => "dark"

def ofText? (word : String) : Option Brightness :=
  if word = "light" then some .light else if word = "dark" then some .dark else none

def ofText (word : String) : Except InvalidLiteral Brightness :=
  match ofText? word with
  | some b => .ok b
  | none => .error ⟨word, .brightness⟩

end Brightness

inductive Value where
  | int (value : Int)
  | double (value : Float)
  | color (value : Color)
  | fontWeight (value : FontWeight)
  | bool (value : Bool)
  | brightness (value : Brightness)
  deriving Repr

namespace Value

def type : Value → ItemType
  | .int _ => .int
  | .double _ => .double
  | .color _ => .color
  | .fontWeight _ => .fontWeight
  | .bool _ => .bool
  | .brightness _ => .brightness

def color? : Value → Option Color
  | .color c => some c
  | _ => none

def double? : Value → Option Float
  | .double x => some x
  | _ => none

def fontWeight? : Value → Option FontWeight
  | .fontWeight w => some w
  | _ => none

def text : Value → String
  | .int n => toString n
  | .double x => Decimal.Layout.plain.float x
  | .color c => c.text
  | .fontWeight w => w.text
  | .bool b => if b then "true" else "false"
  | .brightness b => b.text

end Value
end DesignTokens

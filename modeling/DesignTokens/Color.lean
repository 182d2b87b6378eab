import DesignTokens.Decimal.Layout
import DesignTokens.Decimal.Read
import DesignTokens.Text.Blank

/-!
Colors of eight bits per channel.

Documents write a color as eight hexadecimal digits in the order alpha, red, green, blue; style
sheets put alpha last. A written color is read through the style sheet form, whose reader ignores
white space at the end and also knows the short forms of three, four and six digits. So the eight
characters of a written color need not all be digits.
-/

namespace DesignTokens

structure Color where
  alpha : UInt8
  red : UInt8
  green : UInt8
  blue : UInt8
  deriving DecidableEq, Repr, Inhabited

namespace Color

inductive Error where
  | invalidFormat (text : String)
  | opacityOutOfRange (opacity : Float)
  deriving Repr

def Error.message : Error → String
  | .invalidFormat text =>
      s!"invalid color `{text}`: expected 8 hexadecimal digits in AARRGGBB order"
  | .opacityOutOfRange opacity =>
      s!"opacity {Decimal.Layout.plain.float opacity} must be between 0 and 1"

def black : Color :=
  ⟨255, 0, 0, 0⟩

def white : Color :=
  ⟨255, 255, 255, 255⟩

def argb (c : Color) : Nat :=
  ((c.alpha.toNat * 256 + c.red.toNat) * 256 + c.green.toNat) * 256 + c.blue.toNat

/-- The color of a packed number, of which the lowest 32 bits count. -/
def ofArgb (n : Nat) : Color :=
  ⟨.ofNat (n / 256 / 256 / 256), .ofNat (n / 256 / 256), .ofNat (n / 256), .ofNat n⟩

def hexByte (b : UInt8) : List Char :=
  [Nat.digitChar (b.toNat / 16), Nat.digitChar (b.toNat % 16)]

def text (c : Color) : String :=
  String.ofList (hexByte c.alpha ++ hexByte c.red ++ hexByte c.green ++ hexByte c.blue)

def css (c : Color) : String :=
  String.ofList ('#' :: (hexByte c.red ++ hexByte c.green ++ hexByte c.blue ++ hexByte c.alpha))

/-- The color that hexadecimal digit values denote in a style sheet. A short form doubles its
digits, and without alpha the color is solid. -/
def ofCssDigits : List Nat → Option Color
  | [r, g, b] => some ⟨255, .ofNat (17 * r), .ofNat (17 * g), .ofNat (17 * b)⟩
  | [r, g, b, a] => some ⟨.ofNat (17 * a), .ofNat (17 * r), .ofNat (17 * g), .ofNat (17 * b)⟩
  | [r, r', g, g', b, b'] =>
      some ⟨255, .ofNat (16 * r + r'), .ofNat (16 * g + g'), .ofNat (16 * b + b')⟩
  | [r, r', g, g', b, b', a, a'] =>
      some ⟨.ofNat (16 * a + a'), .ofNat (16 * r + r'), .ofNat (16 * g + g'), .ofNat (16 * b + b')⟩
  | _ => none

def ofCss? (cs : List Char) : Option Color :=
  ((Text.trimEnd cs).mapM (Decimal.digitValue? 16)).bind ofCssDigits

/-- Reads a written color: eight ASCII characters, of which the first two move behind the others. -/
def ofText? (text : String) : Option Color :=
  let cs := text.toList
  if cs.length = 8 ∧ cs.all (·.toNat < 128) then ofCss? (cs.drop 2 ++ cs.take 2) else none

def ofText (text : String) : Except Error Color :=
  match ofText? text with
  | some c => .ok c
  | none => .error (.invalidFormat text)

def withAlpha (c : Color) (alpha : UInt8) : Color :=
  { c with alpha }

/-- Whether the number can be an opacity; not-a-number cannot. -/
def isOpacity (opacity : Float) : Bool :=
  0 ≤ opacity && opacity ≤ 1

/-- The color whose alpha is the given share of 255, rounded to the nearest. -/
def withOpacity (c : Color) (opacity : Float) : Except Error Color :=
  if isOpacity opacity then .ok (c.withAlpha (255 * opacity).round.toUInt8)
  else .error (.opacityOutOfRange opacity)

def isLight (c : Color) : Bool :=
  125 < (c.red.toNat * 299 + c.green.toNat * 587 + c.blue.toNat * 114) / 1000

def contrast (c : Color) : Color :=
  if c.isLight then black else white

instance : Ord Color where
  compare c d := compare c.argb d.argb

end Color
end DesignTokens

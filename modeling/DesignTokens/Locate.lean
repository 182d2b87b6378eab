import DesignTokens.Text.Blank
import DesignTokens.Text.Span
import DesignTokens.Text.Utf8

/-!
Finding keys and values in the text of a document.

The value of a document does not say where its parts are written, so places are found by searching
the text forward from a known offset. A key is found at the beginning of a line only, in front of a
colon and possibly in quotes; the search may begin in the middle of a line, whose rest then counts
as a line. A literal is found wherever it occurs.
-/

namespace DesignTokens

/-- Why a key has no place: no line declares it, or the search would begin past the end of the text
or inside a character. -/
inductive LocateError where
  | keyNotFound (key : String) (offset : Nat)
  | outsideText (offset : Nat)
  deriving DecidableEq, Repr

def LocateError.message : LocateError → String
  | .keyNotFound key offset => s!"key `{key}` not found in the text after offset {offset}"
  | .outsideText offset => s!"offset {offset} is not a place in the text"

namespace Locate

def isIndent (c : Char) : Bool :=
  c == ' ' || c == '\t'

def isQuote (c : Char) : Bool :=
  c == '\x27' || c == '\x22'

/-- The quote that a text begins with, if it begins with one, and the rest. -/
def splitQuote : List Char → List Char × List Char
  | [] => ([], [])
  | c :: cs => if isQuote c then ([c], cs) else ([], c :: cs)

/-- Where a line declares the key, in bytes from the beginning of the line: behind the indentation,
and behind a quote if the same quote follows the key. -/
def keyInLine? (key line : List Char) : Option Nat :=
  let indent := line.takeWhile isIndent
  let (quote, body) := splitQuote (line.dropWhile isIndent)
  if (key ++ quote ++ [':']).isPrefixOf body then some (Text.bytes indent + Text.bytes quote)
  else none

def keyInLines? (key : List Char) (offset : Nat) : List (List Char) → Option Span
  | [] => none
  | line :: lines =>
      match keyInLine? key line with
      | some n => some ⟨offset + n, offset + n + Text.bytes key⟩
      | none => keyInLines? key (offset + Text.bytes line) lines

def key (text : List Char) (offset : Nat) (key : String) : Except LocateError Span :=
  match Text.dropBytes offset text with
  | none => .error (.outsideText offset)
  | some rest =>
      match keyInLines? key.toList offset (Text.lines rest) with
      | some span => .ok span
      | none => .error (.keyNotFound key offset)

/-- The place of the first occurrence of a literal at or behind an offset. The empty literal occurs
nowhere. -/
def literal? (text : List Char) (offset : Nat) (word : String) : Option Span :=
  if word.isEmpty then none
  else do
    let rest ← Text.dropBytes offset text
    let n ← Text.find word.toList rest
    pure ⟨offset + n, offset + n + Text.bytes word.toList⟩

def endsScalar (c : Char) : Bool :=
  c == '#' || c == ',' || c == '}' || c == ']' || c == '\n' || c == '\r'

/-- The place of the plain scalar that stands behind a key on its line. -/
def scalar? (text : List Char) (key : Span) : Option Span := do
  let (quote, rest) := splitQuote (← Text.dropBytes key.stop text)
  match rest with
  | ':' :: rest =>
      let start := key.stop + Text.bytes quote + 1 + Text.bytes (rest.takeWhile isIndent)
      let scalar := Text.trimEnd ((rest.dropWhile isIndent).takeWhile (!endsScalar ·))
      if scalar.isEmpty then none else some ⟨start, start + Text.bytes scalar⟩
  | _ => none

end Locate

/-- A place in a text from which searches go forward. -/
structure Cursor where
  text : List Char
  offset : Nat

namespace Cursor

def key (c : Cursor) (key : String) : Except LocateError Span :=
  Locate.key c.text c.offset key

def literal? (c : Cursor) (word : String) : Option Span :=
  Locate.literal? c.text c.offset word

/-- Moves forward; a place further back is ignored. -/
def advanceTo (c : Cursor) (offset : Nat) : Cursor :=
  { c with offset := max c.offset offset }

theorem le_offset_advanceTo (c : Cursor) (offset : Nat) : c.offset ≤ (c.advanceTo offset).offset :=
  Nat.le_max_left _ _

end Cursor
end DesignTokens

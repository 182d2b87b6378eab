import DesignTokens.Text.Utf8
import DesignTokens.Text.Span

/-!
Lines and columns of byte offsets.

Lines end at a newline and are numbered from zero; columns count characters. An offset past the end
stands for the end, and an offset inside a character stands for the beginning of its line.
-/

namespace DesignTokens

structure Position where
  line : Nat
  column : Nat
  deriving DecidableEq, Repr, Inhabited

structure Range where
  start : Position
  stop : Position
  deriving DecidableEq, Repr, Inhabited

structure LineIndex where
  text : List Char
  starts : List Nat
  deriving Repr

namespace LineIndex

/-- Offsets right behind each newline, for a text that begins at `offset`. -/
def startsFrom (offset : Nat) : List Char → List Nat
  | [] => []
  | c :: cs =>
      if c = '\n' then (offset + c.utf8Size) :: startsFrom (offset + c.utf8Size) cs
      else startsFrom (offset + c.utf8Size) cs

def ofText (text : List Char) : LineIndex :=
  ⟨text, 0 :: startsFrom 0 text⟩

def position (index : LineIndex) (offset : Nat) : Position :=
  let offset := min offset (Text.bytes index.text)
  let line := (index.starts.takeWhile (· ≤ offset)).length - 1
  let start := index.starts.getD line 0
  ⟨line, ((Text.slice start offset index.text).map List.length).getD 0⟩

def range (index : LineIndex) (span : Span) : Range :=
  ⟨index.position span.start, index.position span.stop⟩

/-- The offset of a position; a column past the end of its line stands for the end of the line. -/
def offset? (index : LineIndex) (position : Position) : Option Nat := do
  let start ← index.starts[position.line]?
  -- The newline in front of the next line does not belong to this one.
  let stop := (index.starts[position.line + 1]?.map (· - 1)).getD (Text.bytes index.text)
  let line ← Text.slice start stop index.text
  pure (start + Text.bytes (line.take position.column))

end LineIndex
end DesignTokens

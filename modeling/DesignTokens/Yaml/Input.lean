import DesignTokens.Text.Utf8
import DesignTokens.Yaml.Fault

/-!
The unread part of a document and the place it begins at.

Lines break at five characters, and a carriage return with a line feed is one break. Columns count
characters, and the index counts bytes.
-/

namespace DesignTokens
namespace Yaml

def isAllowed (c : Char) : Bool :=
  let n := c.toNat
  n == 0x09 || n == 0x0a || n == 0x0d || (0x20 ≤ n && n ≤ 0x7e) || n == 0x85
    || (0xa0 ≤ n && n ≤ 0xd7ff) || (0xe000 ≤ n && n ≤ 0xfffd) || 0x10000 ≤ n

/-- A document is read in pieces of so many bytes, and all characters of a piece are checked before
the first of them is used. -/
def pieceBytes : Nat :=
  16384

/-- The place at which the piece with the first forbidden character begins; `begin` is where the
piece of the next character begins, and `used` says how many of its bytes are taken. -/
def unreadable? (place begin used : Nat) : List Char → Option Nat
  | [] => none
  | c :: cs =>
      let isFull := pieceBytes < used + c.utf8Size
      let begin := if isFull then place else begin
      let used := if isFull then 0 else used
      if isAllowed c then unreadable? (place + 1) begin (used + c.utf8Size) cs else some begin

def isBreak (c : Char) : Bool :=
  c == '\n' || c == '\r' || c == '\x85' || c == '\u2028' || c == '\u2029'

def isBlank (c : Char) : Bool :=
  c == ' ' || c == '\t'

def isGap : Option Char → Bool
  | none => true
  | some c => isBlank c || isBreak c

def isWord (c : Char) : Bool :=
  c.isAlphanum || c == '_' || c == '-'

structure Input where
  rest : List Char
  index : Nat
  line : Nat
  column : Nat
  deriving Repr

namespace Input

def ofText (text : List Char) : Input :=
  ⟨text, 0, 0, 0⟩

def peek (i : Input) : Option Char :=
  i.rest.head?

def peekAt (i : Input) (n : Nat) : Option Char :=
  (i.rest.drop n).head?

/-- Moves on over characters of the line to what follows them. -/
def pass (i : Input) (passed rest : List Char) : Input :=
  { i with rest, index := i.index + Text.bytes passed, column := i.column + passed.length }

def moveTo (i : Input) (rest : List Char) : Input :=
  i.pass (i.rest.take (i.rest.length - rest.length)) rest

def skip (i : Input) (n : Nat) : Input :=
  i.pass (i.rest.take n) (i.rest.drop n)

def skipWhile (i : Input) (p : Char → Bool) : Input :=
  i.pass (i.rest.takeWhile p) (i.rest.dropWhile p)

def takeWhile (i : Input) (p : Char → Bool) : List Char × Input :=
  (i.rest.takeWhile p, i.skipWhile p)

/-- Reads a line break. It counts as a newline, except that the two Unicode separators stay what
they are. -/
def takeBreak (i : Input) : Option (Char × Input) :=
  match i.rest with
  | '\r' :: '\n' :: cs => some ('\n', ⟨cs, i.index + 2, i.line + 1, 0⟩)
  | c :: cs =>
      if isBreak c then
        let kept := if c == '\u2028' || c == '\u2029' then c else '\n'
        some (kept, ⟨cs, i.index + c.utf8Size, i.line + 1, 0⟩)
      else none
  | [] => none

def skipBreak (i : Input) : Input :=
  match i.takeBreak with
  | some (_, j) => j
  | none => i

def skipComment (i : Input) : Input :=
  let i := i.skipWhile isBlank
  if i.peek == some '#' then i.skipWhile (!isBreak ·) else i

/-- Whether three equal characters at the beginning of a line mark the limit of a document. -/
def atMarker (i : Input) (c : Char) : Bool :=
  i.column == 0 && i.rest.take 3 == [c, c, c] && isGap (i.peekAt 3)

def atLimit (i : Input) : Bool :=
  i.atMarker '-' || i.atMarker '.'

end Input
end Yaml
end DesignTokens

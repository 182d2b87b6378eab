import DesignTokens.Yaml.Scan.Flow

/-!
Reading block scalars.

The lines of a block scalar are those that are indented to the column of its first line, or to the
column that its header announces. Folding joins lines by spaces, and the header says what becomes of
the line breaks at the end.
-/

namespace DesignTokens
namespace Yaml
namespace Scan

inductive Chomping where
  | strip
  | clip
  | keep
  deriving DecidableEq

def chomping? (c : Char) : Option Chomping :=
  if c == '+' then some .keep else if c == '-' then some .strip else none

def indentation? (c : Char) : Except Fault (Option Nat) :=
  if c == '0' then .error .noToken
  else .ok (if c.isDigit then some (c.toNat - 48) else none)

def blockHeader (i : Input) : Except Fault (Chomping × Option Nat × Input) :=
  let indentation (i : Input) : Except Fault (Option Nat × Input) :=
    match i.peek with
    | some c => (indentation? c).map fun n => (n, if n.isSome then i.skip 1 else i)
    | none => .ok (none, i)
  match i.peek.bind chomping? with
  | some chomping => do
      let (n, i) ← indentation (i.skip 1)
      pure (chomping, n, i)
  | none => do
      let (n, i) ← indentation i
      match n, i.peek.bind chomping? with
      | some n, some chomping => pure (chomping, some n, i.skip 1)
      | n, _ => pure (.clip, n, i)

/-- Skips the indentation and the empty lines before a line of a block scalar. While the indentation
is not known all spaces belong to it, and `widest` is the largest column reached. -/
def blockBreaks (indent : Option Nat) :
    Nat → Nat → List Char → Input → Except Fault (Nat × List Char × Input)
  | 0, widest, breaks, i => .ok (widest, breaks, i)
  | rounds + 1, widest, breaks, i =>
      let spaces := (i.rest.takeWhile (· == ' ')).length
      let i := i.skip (match indent with
        | some n => min spaces (n - i.column)
        | none => spaces)
      let widest := max widest i.column
      let beforeMargin := match indent with
        | some n => decide (i.column < n)
        | none => true
      if beforeMargin && i.peek == some '\t' then .error .tabIndentation
      else
        match i.takeBreak with
        | some (c, j) => blockBreaks indent rounds widest (breaks ++ [c]) j
        | none => .ok (widest, breaks, i)

/-- What is read of a block scalar so far: its text, the break behind the last line, the empty lines
behind that, and whether the last line began with a blank. -/
structure BlockText where
  text : List Char
  lastBreak : List Char
  breaks : List Char
  wasBlank : Bool

/-- Appends a line. Folding joins two lines by a space unless one of them begins with a blank or
empty lines lie between them. -/
def BlockText.addLine (b : BlockText) (folded : Bool) (line : List Char) : BlockText :=
  let isBlankLine := line.head?.any isBlank
  let joint :=
    if folded && b.lastBreak == ['\n'] && !b.wasBlank && !isBlankLine then
      if b.breaks.isEmpty then [' '] else []
    else b.lastBreak
  ⟨b.text ++ joint ++ b.breaks ++ line, [], [], isBlankLine⟩

def blockLines (folded : Bool) (indent : Nat) :
    Nat → BlockText → Input → Except Fault (BlockText × Input)
  | 0, b, i => .ok (b, i)
  | rounds + 1, b, i =>
      if i.column != indent || i.rest.isEmpty then .ok (b, i)
      else do
        let (line, i) := i.takeWhile (!isBreak ·)
        let b := b.addLine folded line
        let (lastBreak, i) := match i.takeBreak with
          | some (c, j) => ([c], j)
          | none => ([], i)
        let (_, breaks, i) ← blockBreaks (some indent) (i.rest.length + 1) 0 [] i
        blockLines folded indent rounds { b with lastBreak, breaks } i

/-- Reads a block scalar inside a block at column `outer`, which is negative at the top level. -/
def block (folded : Bool) (outer : Int) (i : Input) : Except Fault (ScalarText × Input) := do
  let (chomping, increment, i) ← blockHeader (i.skip 1)
  let i := i.skipComment
  if !(i.peek.isNone || i.peek.any isBreak) then .error .noToken
  else
    let i := i.skipBreak
    let indent := increment.map fun n => if 0 ≤ outer then outer.toNat + n else n
    let (widest, breaks, i) ← blockBreaks indent (i.rest.length + 1) 0 [] i
    -- If no column is announced, the first line and the empty lines before it decide.
    let indent := indent.getD (max widest (max (outer + 1).toNat 1))
    let (b, i) ← blockLines folded indent (i.rest.length + 1) ⟨[], [], breaks, false⟩ i
    let text := match chomping with
      | .strip => b.text
      | .clip => b.text ++ b.lastBreak
      | .keep => b.text ++ b.lastBreak ++ b.breaks
    pure (⟨text, false⟩, i)

end Scan
end Yaml
end DesignTokens

import DesignTokens.Yaml.Input
import DesignTokens.Decimal.Read

/-!
Reading one scalar, anchor, tag or directive.

Each reader takes the input at the first character of what it reads and gives the content with the
input behind it. Scalars run over several lines: between two runs of visible characters lies a gap,
and `Gap.text` says what the gap contributes. One line break becomes a space, further ones are kept.

The readers that loop take a bound on the number of rounds. Every round reads at least one
character, so the length of the input is enough.
-/

namespace DesignTokens
namespace Yaml

/-- The white space between two runs of a scalar: blanks as long as no line ended, or else the first
line break, unless it was escaped, and the other ones. -/
structure Gap where
  broken : Bool
  blanks : List Char
  first : Option Char
  more : List Char

namespace Gap

def empty : Gap :=
  ⟨false, [], none, []⟩

def escaped : Gap :=
  ⟨true, [], none, []⟩

def text (g : Gap) : List Char :=
  if g.broken then
    match g.first, g.more with
    | some '\n', [] => [' ']
    | some '\n', more => more
    | some c, more => c :: more
    | none, more => more
  else g.blanks

def addBreak (g : Gap) (c : Char) : Gap :=
  if g.broken then { g with more := g.more ++ [c] } else ⟨true, [], some c, g.more⟩

/-- Reads blanks and breaks onto a gap. Behind a break a tab must not stand before column `margin`.
-/
def read (margin : Nat) : Nat → Gap → Input → Except Fault (Gap × Input)
  | 0, g, i => .ok (g, i)
  | rounds + 1, g, i =>
      match i.peek with
      | none => .ok (g, i)
      | some c =>
          if isBlank c then
            if g.broken then
              if c == '\t' && i.column < margin then .error .tabIndentation
              else read margin rounds g (i.skip 1)
            else read margin rounds { g with blanks := g.blanks ++ [c] } (i.skip 1)
          else
            match i.takeBreak with
            | some (b, j) => read margin rounds (g.addBreak b) j
            | none => .ok (g, i)

end Gap

structure ScalarText where
  text : List Char
  isPlain : Bool
  deriving DecidableEq, Repr

namespace Scan

def isFlowIndicator (c : Char) : Bool :=
  c == ',' || c == '[' || c == ']' || c == '{' || c == '}'

def plainRun (inFlow : Bool) : List Char → Except Fault (List Char)
  | [] => .ok []
  | c :: cs =>
      if isGap (some c) then .ok []
      -- Inside brackets such a colon neither ends the scalar nor belongs to it.
      else if inFlow && c == ':' && cs.head?.any (fun d => isFlowIndicator d || d == '?') then
        .error .noToken
      else if (c == ':' && isGap cs.head?) || (inFlow && isFlowIndicator c) then .ok []
      else (plainRun inFlow cs).map (c :: ·)

/-- Reads the lines of a plain scalar onto `acc`; `gap` is what lies between `acc` and the input. In
a block, lines must be indented by `margin`. The result also tells whether the scalar was followed
by a line break. -/
def plainLines (inFlow : Bool) (margin : Nat) :
    Nat → List Char → Gap → Input → Except Fault (List Char × Bool × Input)
  | 0, acc, gap, i => .ok (acc, gap.broken, i)
  | rounds + 1, acc, gap, i =>
      if i.atLimit || i.peek == some '#' then .ok (acc, gap.broken, i)
      else do
        let run ← plainRun inFlow i.rest
        let (acc, gap) := if run.isEmpty then (acc, gap) else (acc ++ gap.text ++ run, Gap.empty)
        let i := i.skip run.length
        if i.peek.isNone || !isGap i.peek then pure (acc, gap.broken, i)
        else
          let (gap, i) ← gap.read margin (i.rest.length + 1) i
          if !inFlow && i.column < margin then pure (acc, gap.broken, i)
          else plainLines inFlow margin rounds acc gap i

def plain (inFlow : Bool) (margin : Nat) (i : Input) :
    Except Fault (ScalarText × Bool × Input) := do
  let (text, broken, i) ← plainLines inFlow margin (i.rest.length + 1) [] Gap.empty i
  pure (⟨text, true⟩, broken, i)

def escape? (c : Char) : Option Char :=
  match c with
  | '0' => some '\x00'
  | 'a' => some '\x07'
  | 'b' => some '\x08'
  | 't' => some '\t'
  | '\t' => some '\t'
  | 'n' => some '\n'
  | 'v' => some '\x0b'
  | 'f' => some '\x0c'
  | 'r' => some '\r'
  | 'e' => some '\x1b'
  | ' ' => some ' '
  | '\x22' => some '\x22'
  | '/' => some '/'
  | '\\' => some '\\'
  | 'N' => some '\x85'
  | '_' => some '\xa0'
  | 'L' => some '\u2028'
  | 'P' => some '\u2029'
  | _ => none

def escapeLength? (c : Char) : Option Nat :=
  match c with
  | 'x' => some 2
  | 'u' => some 4
  | 'U' => some 8
  | _ => none

def hex? (cs : List Char) : Option Nat :=
  cs.foldlM (fun acc c => (Decimal.digitValue? 16 c).map (acc * 16 + ·)) 0

def codePoint? (n : Nat) : Option Char :=
  if n.isValidChar then some (Char.ofNat n) else none

/-- The run of characters of a double-quoted scalar, up to a gap, the closing quote or an escaped
line break. -/
def doubleRun : Nat → List Char → Except Fault (List Char × List Char)
  | 0, cs => .ok ([], cs)
  | _ + 1, [] => .ok ([], [])
  | rounds + 1, '\\' :: d :: cs =>
      if isBreak d then .ok ([], '\\' :: d :: cs)
      else
        match escape? d, escapeLength? d with
        | some c, _ => (doubleRun rounds cs).map fun (run, rest) => (c :: run, rest)
        | none, some n =>
            let digits := cs.take n
            match (if digits.length = n then (hex? digits).bind codePoint? else none) with
            | some c => (doubleRun rounds (cs.drop n)).map fun (run, rest) => (c :: run, rest)
            | none => .error .badEscape
        | none, none => .error .badEscape
  | rounds + 1, c :: cs =>
      if isGap (some c) || c == '\x22' then .ok ([], c :: cs)
      else if c == '\\' then .error .badEscape
      else (doubleRun rounds cs).map fun (run, rest) => (c :: run, rest)

/-- The run of characters of a single-quoted scalar, up to a gap or the closing quote. A doubled
quote is a quote. -/
def singleRun : List Char → List Char × List Char
  | '\x27' :: '\x27' :: cs =>
      let (run, rest) := singleRun cs
      ('\x27' :: run, rest)
  | c :: cs =>
      if isGap (some c) || c == '\x27' then ([], c :: cs)
      else
        let (run, rest) := singleRun cs
        (c :: run, rest)
  | [] => ([], [])

def quotedLines (quote : Char) : Nat → List Char → Input → Except Fault (List Char × Input)
  | 0, _, _ => .error .unclosed
  | rounds + 1, acc, i =>
      if i.atLimit || i.rest.isEmpty then .error .unclosed
      else do
        let (run, rest) ←
          if quote == '\x27' then pure (singleRun i.rest) else doubleRun i.rest.length i.rest
        let acc := acc ++ run
        let i := i.moveTo rest
        if i.peek == some quote then pure (acc, i.skip 1)
        else
          -- An escaped line break joins its lines without a space.
          let (gap, i) :=
            if i.peek == some '\\' then (Gap.escaped, (i.skip 1).skipBreak) else (Gap.empty, i)
          let (gap, i) ← gap.read 0 (i.rest.length + 1) i
          quotedLines quote rounds (acc ++ gap.text) i

def quoted (quote : Char) (i : Input) : Except Fault (ScalarText × Input) := do
  let (text, i) ← quotedLines quote (i.rest.length + 1) [] (i.skip 1)
  pure (⟨text, false⟩, i)

end Scan
end Yaml
end DesignTokens

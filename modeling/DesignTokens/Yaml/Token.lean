import DesignTokens.Yaml.Scan.Block
import DesignTokens.Yaml.Scan.Property

/-!
The tokens of a document.

Besides what is written, the tokens tell where block collections begin and end, which follows from
the indentation. That a scalar is the key of a mapping shows only at the colon behind it, so
whatever may turn out to be a key is remembered while the line goes on; at the colon the missing
tokens are put in before it. Inside brackets each level remembers its own possible key.

A text with a fault has tokens too, those before the fault that no later character could change. A
reader of the tokens comes to the fault when it asks for the token behind them.
-/

namespace DesignTokens
namespace Yaml

inductive Token where
  | directive (directive : Scan.Directive)
  | documentStart
  | documentEnd
  | blockSequenceStart
  | blockMappingStart
  | blockEnd
  | flowSequenceStart
  | flowSequenceEnd
  | flowMappingStart
  | flowMappingEnd
  | blockEntry
  | flowEntry
  | key
  | value
  | aliasName (name : String)
  | anchorName (name : String)
  | tag (handle : String) (suffix : TagText)
  | scalar (scalar : ScalarText)
  deriving DecidableEq, Repr

/-- A token with `position` tokens before it, which is a key if a colon follows on its line. At the
margin of a block mapping nothing but a key can stand, and the key is `required`. -/
structure PossibleKey where
  position : Nat
  index : Nat
  line : Nat
  column : Nat
  required : Bool
  deriving Repr

/-- The tokens read so far, the last one first, and what decides about the next one: the columns of
the block collections, negative outside of all, the possible keys, one for each open bracket and one
for the innermost level, and whether a key may begin here. -/
structure Lexer where
  input : Input
  tokens : List Token
  indent : Int
  outerIndents : List Int
  possibleKey : Option PossibleKey
  outerKeys : List (Option PossibleKey)
  keyAllowed : Bool

namespace Lexer

def ofText (text : List Char) : Lexer :=
  ⟨Input.ofText text, [], -1, [], none, [], true⟩

def inFlow (l : Lexer) : Bool :=
  !l.outerKeys.isEmpty

def push (l : Lexer) (t : Token) : Lexer :=
  { l with tokens := t :: l.tokens }

/-- Puts tokens in before the one that has `position` tokens before it. -/
def insert (l : Lexer) (position : Nat) (ts : List Token) : Lexer :=
  let later := l.tokens.length - position
  { l with tokens := l.tokens.take later ++ ts.reverse ++ l.tokens.drop later }

/-- Skips white space, comments and line breaks. A line break outside brackets lets a key begin.
Where a key may begin, tabs do not count as white space. A mark of the byte order at the beginning
of a line is skipped too, and takes up a column. -/
def skipSpace : Nat → Lexer → Lexer
  | 0, l => l
  | rounds + 1, l =>
      let i := l.input
      let i := if i.column == 0 && i.peek == some '\ufeff' then i.skip 1 else i
      let i := i.skipWhile fun c => c == ' ' || (c == '\t' && (l.inFlow || !l.keyAllowed))
      let i := if i.peek == some '#' then i.skipWhile (!isBreak ·) else i
      match i.takeBreak with
      | some (_, j) =>
          skipSpace rounds { l with input := j, keyAllowed := l.keyAllowed || !l.inFlow }
      | none => { l with input := i }

/-- A possible key is given up on the next line, or when it is too long. -/
def expire (i : Input) (k : Option PossibleKey) : Except Fault (Option PossibleKey) :=
  match k with
  | none => .ok none
  | some k =>
      if k.line < i.line || k.index + 1024 < i.index then
        if k.required then .error .keyWithoutColon else .ok none
      else .ok (some k)

def expireKeys (l : Lexer) : Except Fault Lexer := do
  let possibleKey ← expire l.input l.possibleKey
  let outerKeys ← l.outerKeys.mapM (expire l.input)
  pure { l with possibleKey, outerKeys }

def dropKey (l : Lexer) : Except Fault Lexer :=
  if l.possibleKey.any (·.required) then .error .keyWithoutColon
  else .ok { l with possibleKey := none }

def saveKey (l : Lexer) : Except Fault Lexer :=
  if l.keyAllowed then do
    let l ← l.dropKey
    let i := l.input
    let required := !l.inFlow && l.indent == i.column
    pure { l with possibleKey := some ⟨l.tokens.length, i.index, i.line, i.column, required⟩ }
  else .ok l

def openBlock (l : Lexer) (column position : Nat) (start : Token) : Lexer :=
  if !l.inFlow && l.indent < column then
    { l.insert position [start] with indent := column, outerIndents := l.indent :: l.outerIndents }
  else l

def closeBlocks (column : Int) (l : Lexer) : Lexer :=
  if l.inFlow then l
  else
    let closing := (l.indent :: l.outerIndents).takeWhile (column < ·)
    let left := (l.indent :: l.outerIndents).dropWhile (column < ·)
    { l with
      tokens := closing.map (fun _ => Token.blockEnd) ++ l.tokens
      indent := left.headD (-1)
      outerIndents := left.tail }

def take (l : Lexer) (n : Nat) (t : Token) : Lexer :=
  { l with input := l.input.skip n }.push t

def leaveDocument (l : Lexer) : Except Fault Lexer := do
  let l ← (l.closeBlocks (-1)).dropKey
  pure { l with keyAllowed := false }

def openFlow (l : Lexer) (t : Token) : Except Fault Lexer := do
  let l ← l.saveKey
  let outerKeys := l.possibleKey :: l.outerKeys
  pure (take { l with possibleKey := none, outerKeys, keyAllowed := true } 1 t)

def closeFlow (l : Lexer) (t : Token) : Except Fault Lexer := do
  let l ← l.dropKey
  let l := match l.outerKeys with
    | k :: ks => { l with possibleKey := k, outerKeys := ks }
    | [] => l
  pure (take { l with keyAllowed := false } 1 t)

def flowEntry (l : Lexer) : Except Fault Lexer := do
  let l ← l.dropKey
  pure (take { l with keyAllowed := true } 1 .flowEntry)

def blockEntry (l : Lexer) : Except Fault Lexer := do
  if !l.inFlow && !l.keyAllowed then .error .misplaced
  else
    let l ← (l.openBlock l.input.column l.tokens.length .blockSequenceStart).dropKey
    pure (take { l with keyAllowed := true } 1 .blockEntry)

def explicitKey (l : Lexer) : Except Fault Lexer := do
  if !l.inFlow && !l.keyAllowed then .error .misplaced
  else
    let l ← (l.openBlock l.input.column l.tokens.length .blockMappingStart).dropKey
    pure (take { l with keyAllowed := !l.inFlow } 1 .key)

/-- Reads the colon before a value. If a key was possible it was one. -/
def value (l : Lexer) : Except Fault Lexer :=
  match l.possibleKey with
  | some k =>
      let l := (l.insert k.position [.key]).openBlock k.column k.position .blockMappingStart
      .ok (take { l with possibleKey := none, keyAllowed := false } 1 .value)
  | none =>
      if !l.inFlow && !l.keyAllowed then .error .misplaced
      else
        let l := l.openBlock l.input.column l.tokens.length .blockMappingStart
        .ok (take { l with keyAllowed := !l.inFlow } 1 .value)

def keyPart (l : Lexer) (read : Input → Except Fault (Token × Input)) : Except Fault Lexer := do
  let l ← l.saveKey
  let (t, i) ← read l.input
  pure ({ l with input := i, keyAllowed := false }.push t)

def plainScalar (l : Lexer) : Except Fault Lexer := do
  let l ← l.saveKey
  let (s, broken, i) ← Scan.plain l.inFlow (l.indent + 1).toNat l.input
  pure ({ l with input := i, keyAllowed := broken }.push (.scalar s))

def blockScalar (l : Lexer) (folded : Bool) : Except Fault Lexer := do
  let l ← l.dropKey
  let (s, i) ← Scan.block folded l.indent l.input
  pure ({ l with input := i, keyAllowed := true }.push (.scalar s))

def startsPlain (inFlow : Bool) (c : Char) (next : Option Char) : Bool :=
  if c == '-' then !next.any isBlank
  else if c == '?' || c == ':' then !inFlow && !isGap next
  else !(isGap (some c) || ",[]\x7b\x7d#&*!|>'\"%@`".toList.contains c)

def tokenAt (l : Lexer) (c : Char) : Except Fault Lexer :=
  let i := l.input
  let next := i.peekAt 1
  if i.column == 0 && c == '%' then do
    let l ← l.leaveDocument
    let (d, i) ← Scan.directive l.input
    pure ({ l with input := i }.push (.directive d))
  else if i.atMarker '-' then do pure ((← l.leaveDocument).take 3 .documentStart)
  else if i.atMarker '.' then do pure ((← l.leaveDocument).take 3 .documentEnd)
  else if c == '[' then l.openFlow .flowSequenceStart
  else if c == '{' then l.openFlow .flowMappingStart
  else if c == ']' then l.closeFlow .flowSequenceEnd
  else if c == '}' then l.closeFlow .flowMappingEnd
  else if c == ',' then l.flowEntry
  else if c == '-' && isGap next then l.blockEntry
  else if c == '?' && (l.inFlow || isGap next) then l.explicitKey
  else if c == ':' && (l.inFlow || isGap next) then l.value
  else if c == '*' then l.keyPart fun i => (Scan.anchor i).map fun (n, i) => (.aliasName n, i)
  else if c == '&' then l.keyPart fun i => (Scan.anchor i).map fun (n, i) => (.anchorName n, i)
  else if c == '!' then l.keyPart fun i => (Scan.tag l.inFlow i).map fun (h, s, i) => (.tag h s, i)
  else if c == '|' && !l.inFlow then l.blockScalar false
  else if c == '>' && !l.inFlow then l.blockScalar true
  else if c == '\x27' || c == '\x22' then
    l.keyPart fun i => (Scan.quoted c i).map fun (s, i) => (.scalar s, i)
  else if startsPlain l.inFlow c next then l.plainScalar
  else .error .noToken

def finish (l : Lexer) : Except Fault Lexer := do
  let l ← (l.closeBlocks (-1)).dropKey
  let i := l.input
  -- The end of the text ends its line, so no key is possible any more.
  expireKeys { l with input := { i with line := i.line + 1, column := 0 } }

/-- Reads the next token with the marks that come before it. If the text `goesOn` behind the input
with characters that cannot be read, coming near the end of the input is a fault. -/
def next (goesOn : Bool) (l : Lexer) : Except Fault Lexer := do
  let l ← (l.skipSpace (l.input.rest.length + 1)).expireKeys
  if goesOn && l.input.rest.length < 4 then throw .forbiddenCharacter
  let l := l.closeBlocks l.input.column
  match l.input.peek with
  | none => l.finish
  | some c =>
      let l ← l.tokenAt c
      if goesOn && l.input.rest.isEmpty then throw .forbiddenCharacter
      l.expireKeys

/-- The tokens before which none will be put in any more. -/
def settled (l : Lexer) : List Token :=
  let positions := (l.possibleKey :: l.outerKeys).filterMap fun k => k.map PossibleKey.position
  l.tokens.reverse.take (positions.foldl min l.tokens.length)

end Lexer

structure TokenList where
  tokens : List Token
  fault : Option Fault
  deriving Repr

namespace TokenList

/-- Reads all tokens. The round that begins at the end of the input is the last. -/
def ofLexer (goesOn : Bool) : Nat → Lexer → TokenList
  | 0, l => ⟨l.settled, some .noToken⟩
  | rounds + 1, l =>
      match l.next goesOn with
      | .error fault => ⟨l.settled, some fault⟩
      | .ok after =>
          if l.input.rest.isEmpty then ⟨after.tokens.reverse, none⟩ else ofLexer goesOn rounds after

def ofText (text : List Char) : TokenList :=
  match unreadable? 0 0 0 text with
  | none => ofLexer false (text.length + 2) (.ofText text)
  | some n => ofLexer true (n + 2) (.ofText (text.take n))

end TokenList

end Yaml
end DesignTokens

import DesignTokens.Yaml.Scan.Flow
import DesignTokens.Yaml.Tag

/-!
Reading anchors, tags and directives.
-/

namespace DesignTokens
namespace Yaml
namespace Scan

def anchor (i : Input) : Except Fault (String × Input) :=
  let (name, i) := (i.skip 1).takeWhile isWord
  let ends := isGap i.peek || i.peek.any fun c => "?:,]\x7d%@`".toList.contains c
  if name.isEmpty || !ends then .error .noToken else .ok (String.ofList name, i)

/-- Whether the character can be part of a tag; brackets and commas only inside angle brackets. -/
def isTagChar (verbatim : Bool) (c : Char) : Bool :=
  isWord c || ";/?:@&=+$.%!~*'()".toList.contains c || (verbatim && ",[]".toList.contains c)

def octetCount? (octet : Nat) : Option Nat :=
  if octet < 0x80 then some 1
  else if 0xc0 ≤ octet ∧ octet < 0xe0 then some 2
  else if 0xe0 ≤ octet ∧ octet < 0xf0 then some 3
  else if 0xf0 ≤ octet ∧ octet < 0xf8 then some 4
  else none

def octet? : List Char → Option (Nat × List Char)
  | '%' :: c :: d :: cs => (hex? [c, d]).map (·, cs)
  | _ => none

def octets : Nat → List Char → Option (List Nat × List Char)
  | 0, cs => some ([], cs)
  | n + 1, cs => do
      let (octet, cs) ← octet? cs
      if octet < 0x80 ∨ 0xc0 ≤ octet then none
      else
        let (octets, cs) ← octets n cs
        pure (octet :: octets, cs)

/-- The character that a leading octet and the others encode. Only the shortest encoding of a
character counts. -/
def decode? (lead : Nat) (others : List Nat) : Option Char :=
  let (bits, least) := match others.length with
    | 0 => (lead, 0)
    | 1 => (lead % 0x20, 0x80)
    | 2 => (lead % 0x10, 0x800)
    | _ => (lead % 0x08, 0x10000)
  let n := others.foldl (fun acc octet => acc * 64 + octet % 64) bits
  if least ≤ n then codePoint? n else none

/-- Reads as many octets as the first of them announces, whether they encode a character or not. -/
def escaped? (cs : List Char) : Option (Option Char × List Char) := do
  let (lead, cs) ← octet? cs
  let count ← octetCount? lead
  let (others, cs) ← octets (count - 1) cs
  pure (decode? lead others, cs)

def tagChars (verbatim : Bool) : Nat → List Char → Except Fault (TagText × List Char)
  | 0, cs => .ok ([], cs)
  | _ + 1, [] => .ok ([], [])
  | rounds + 1, c :: cs =>
      if !isTagChar verbatim c then .ok ([], c :: cs)
      else if c == '%' then
        match escaped? (c :: cs) with
        | some (d, rest) => (tagChars verbatim rounds rest).map fun (run, rest) => (d :: run, rest)
        | none => .error .badTag
      else (tagChars verbatim rounds cs).map fun (run, rest) => (some c :: run, rest)

/-- Reads the characters of a tag, of which there must be one, be it the NUL that ends the tag. -/
def tagText (verbatim : Bool) (i : Input) : Except Fault (TagText × Input) := do
  let (text, rest) ← tagChars verbatim i.rest.length i.rest
  if text.isEmpty then .error .badTag else pure (text.beforeNul, i.moveTo rest)

def handle (i : Input) : Except Fault (List Char × Input) :=
  if i.peek != some '!' then .error .badTag
  else
    let (name, j) := (i.skip 1).takeWhile isWord
    if j.peek == some '!' then .ok ('!' :: name ++ ['!'], j.skip 1) else .ok ('!' :: name, j)

/-- Reads a tag as a handle and what follows it. A tag in angle brackets has no handle, and neither
has the tag that is a lone exclamation mark. -/
def tag (inFlow : Bool) (i : Input) : Except Fault (String × TagText × Input) := do
  let (handle, suffix, i) ←
    if i.peekAt 1 == some '<' then do
      let (text, i) ← tagText true (i.skip 2)
      if i.peek == some '>' then pure ([], text, i.skip 1) else .error .badTag
    else do
      let (head, j) ← handle i
      if 1 < head.length && head.getLast? == some '!' then do
        let (text, j) ← tagText false j
        pure (head, text, j)
      else do
        -- The word behind a lone mark is no handle but the beginning of the suffix.
        let (more, rest) ← tagChars false j.rest.length j.rest
        let text := TagText.beforeNul (.ofChars (head.drop 1) ++ more)
        let j := j.moveTo rest
        pure (if text.isEmpty then ([], [some '!'], j) else (['!'], text, j))
  if isGap i.peek || (inFlow && i.peek == some ',') then
    pure (String.ofList handle, suffix, i)
  else .error .badTag

inductive Directive where
  | version (major minor : Nat)
  | tagHandle (handle : String) (replacement : TagText)
  deriving DecidableEq, Repr

def versionNumber (i : Input) : Except Fault (Nat × Input) :=
  let (digits, i) := i.takeWhile Char.isDigit
  if digits.isEmpty || 9 < digits.length then .error .badDirective
  else .ok (Decimal.natOfDigits digits, i)

def directive (i : Input) : Except Fault (Directive × Input) := do
  let (name, i) := (i.skip 1).takeWhile isWord
  if name.isEmpty || !isGap i.peek then .error .badDirective
  else
    let i := i.skipWhile isBlank
    let (d, i) ←
      if String.ofList name = "YAML" then do
        let (major, i) ← versionNumber i
        if i.peek != some '.' then .error .badDirective
        else
          let (minor, i) ← versionNumber (i.skip 1)
          pure (Directive.version major minor, i)
      else if String.ofList name = "TAG" then do
        let (head, i) ← handle i
        let closed := head.length == 1 || head.getLast? == some '!'
        if !closed || !i.peek.any isBlank then .error .badDirective
        else
          let (text, i) ← tagText true (i.skipWhile isBlank)
          if isGap i.peek then
            pure (Directive.tagHandle (String.ofList head) text, i)
          else .error .badDirective
      else .error .badDirective
    let i := i.skipComment
    if i.peek.isNone || i.peek.any isBreak then pure (d, i.skipBreak) else .error .badDirective

end Scan
end Yaml
end DesignTokens

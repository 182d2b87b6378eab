import DesignTokens.Decimal.Read
import DesignTokens.Toml.Value

/-!
Reading a TOML file.

Readers take the characters that are left and give what they read with the rest, or nothing if the
text is not as it should be. Those that loop or nest take a bound on the number of rounds, for which
the length of the text is enough. Values are nested at most 80 deep, and a key has at most 80 parts.
-/

namespace DesignTokens
namespace Toml

def isBlank (c : Char) : Bool :=
  c == ' ' || c == '\t'

/-- How deep values may be nested, and how many parts a key may have. -/
def maxDepth : Nat :=
  80

def isControl (c : Char) : Bool :=
  c != '\t' && (c.toNat < 0x20 || c.toNat == 0x7f)

def skipBlanks (cs : List Char) : List Char :=
  cs.dropWhile isBlank

def newline? : List Char → Option (List Char)
  | '\n' :: cs => some cs
  | '\r' :: '\n' :: cs => some cs
  | _ => none

def skipComment (cs : List Char) : List Char :=
  match cs with
  | '#' :: rest => rest.dropWhile (!isControl ·)
  | cs => cs

def endOfLine? (cs : List Char) : Option (List Char) :=
  match skipComment (skipBlanks cs) with
  | [] => some []
  | cs => newline? cs

def skipLines : Nat → List Char → List Char
  | 0, cs => cs
  | rounds + 1, cs =>
      let cs := skipComment (skipBlanks cs)
      match newline? cs with
      | some rest => skipLines rounds rest
      | none => cs

def hex? (cs : List Char) : Option Nat :=
  cs.foldlM (fun acc c => (Decimal.digitValue? 16 c).map (acc * 16 + ·)) 0

def escape? : List Char → Option (Char × List Char)
  | [] => none
  | c :: cs =>
      let numeric (n : Nat) : Option (Char × List Char) := do
        let digits := cs.take n
        let code ← if digits.length = n then hex? digits else none
        if code.isValidChar then some (Char.ofNat code, cs.drop n) else none
      match c with
      | 'b' => some ('\x08', cs)
      | 't' => some ('\t', cs)
      | 'n' => some ('\n', cs)
      | 'f' => some ('\x0c', cs)
      | 'r' => some ('\r', cs)
      | 'e' => some ('\x1b', cs)
      | '\x22' => some ('\x22', cs)
      | '\\' => some ('\\', cs)
      | 'x' => numeric 2
      | 'u' => numeric 4
      | 'U' => numeric 8
      | _ => none

def lineString (quote : Char) : Nat → List Char → Option (List Char × List Char)
  | 0, _ => none
  | _ + 1, [] => none
  | rounds + 1, c :: cs =>
      if c == quote then some ([], cs)
      else if c == '\\' && quote == '\x22' then do
        let (d, rest) ← escape? cs
        let (text, rest) ← lineString quote rounds rest
        pure (d :: text, rest)
      else if isControl c then none
      else do
        let (text, rest) ← lineString quote rounds cs
        pure (c :: text, rest)

def skipSpace : Nat → List Char → List Char
  | 0, cs => cs
  | rounds + 1, cs =>
      match newline? (skipBlanks cs) with
      | some rest => skipSpace rounds rest
      | none => skipBlanks cs

def lineContinuation? (cs : List Char) : Option (List Char) :=
  (newline? (skipBlanks cs)).map fun rest => skipSpace (rest.length + 1) rest

/-- Reads the rest of a string over several lines, up to and with the three closing quotes. Up to
two quotes more belong to the string. -/
def linesString (quote : Char) : Nat → List Char → Option (List Char × List Char)
  | 0, _ => none
  | _ + 1, [] => none
  | rounds + 1, c :: cs =>
      let quotes := ((c :: cs).takeWhile (· == quote)).length
      if 6 ≤ quotes then none
      else if 3 ≤ quotes then some (List.replicate (quotes - 3) quote, (c :: cs).drop quotes)
      else if c == '\\' && quote == '\x22' then
        match lineContinuation? cs with
        | some rest => linesString quote rounds rest
        | none => do
            let (d, rest) ← escape? cs
            let (text, rest) ← linesString quote rounds rest
            pure (d :: text, rest)
      else
        match newline? (c :: cs) with
        | some rest => do
            let (text, rest) ← linesString quote rounds rest
            pure ('\n' :: text, rest)
        | none =>
            if isControl c then none
            else do
              let (text, rest) ← linesString quote rounds cs
              pure (c :: text, rest)

def string? (cs : List Char) : Option (String × List Char) :=
  match cs with
  | q :: rest =>
      if q != '\x22' && q != '\x27' then none
      else do
        let (text, rest) ←
          if cs.take 3 == [q, q, q] then
            let rest := cs.drop 3
            linesString q (rest.length + 1) ((newline? rest).getD rest)
          else lineString q (rest.length + 1) rest
        pure (String.ofList text, rest)
  | [] => none

def keyPart? (cs : List Char) : Option (String × List Char) :=
  match cs with
  | q :: rest =>
      if q == '\x22' || q == '\x27' then
        (lineString q (rest.length + 1) rest).map fun (text, rest) => (String.ofList text, rest)
      else
        let isBare (c : Char) : Bool := c.isAlphanum || c == '_' || c == '-'
        let name := cs.takeWhile isBare
        if name.isEmpty then none else some (String.ofList name, cs.dropWhile isBare)
  | [] => none

def keyParts? : Nat → List Char → Option (List String × List Char)
  | 0, _ => none
  | most + 1, cs => do
      let (part, rest) ← keyPart? cs
      match skipBlanks rest with
      | '.' :: rest => do
          let (parts, rest) ← keyParts? most (skipBlanks rest)
          pure (part :: parts, rest)
      | _ => pure ([part], rest)

def key? (cs : List Char) : Option (List String × List Char) :=
  keyParts? maxDepth cs

/-- Removes the underscores from digits; each must stand between two digits. -/
def plainDigits? (isDigit : Char → Bool) : List Char → Option (List Char)
  | [] => some []
  | '_' :: _ => none
  | c :: cs =>
      if !isDigit c then none
      else
        match cs with
        | '_' :: d :: rest => (plainDigits? isDigit (d :: rest)).map (c :: ·)
        | '_' :: [] => none
        | rest => (plainDigits? isDigit rest).map (c :: ·)

def decimalDigits? (cs : List Char) : Option (List Char) :=
  match plainDigits? Char.isDigit cs with
  | some [] => none
  | some ('0' :: _ :: _) => none
  | digits => digits

/-- Reads the word of an integer, however large. -/
def integer? (cs : List Char) : Option Int :=
  let based (base : Nat) (digits : List Char) : Option Int := do
    let digits ← plainDigits? (fun c => (Decimal.digitValue? base c).isSome) digits
    let value ← digits.foldlM (fun n c => (Decimal.digitValue? base c).map (n * base + ·)) 0
    if digits.isEmpty then none else some value
  match cs with
  | '0' :: 'x' :: digits => based 16 digits
  | '0' :: 'o' :: digits => based 8 digits
  | '0' :: 'b' :: digits => based 2 digits
  | _ => do
      let (sign, digits) : Int × List Char := match cs with
        | '-' :: ds => (-1, ds)
        | '+' :: ds => (1, ds)
        | ds => (1, ds)
      let digits ← decimalDigits? digits
      some (sign * Decimal.natOfDigits digits)

def dropSign : List Char → List Char
  | '-' :: cs => cs
  | '+' :: cs => cs
  | cs => cs

def isSpecial (cs : List Char) : Bool :=
  ["inf", "nan"].contains (String.ofList (dropSign cs))

/-- Whether the word is a float: a whole part, then a fraction or an exponent or both. -/
def isFloat (cs : List Char) : Bool :=
  let isDigits (cs : List Char) : Bool := !cs.isEmpty && (plainDigits? Char.isDigit cs).isSome
  let magnitude := dropSign cs
  let isMark (c : Char) : Bool := c == 'e' || c == 'E'
  let number := magnitude.takeWhile (!isMark ·)
  let exponent := magnitude.dropWhile (!isMark ·)
  let whole := number.takeWhile (· != '.')
  let fraction := number.dropWhile (· != '.')
  (decimalDigits? whole).isSome
    && (fraction.isEmpty || isDigits (fraction.drop 1))
    && (exponent.isEmpty || isDigits (dropSign (exponent.drop 1)))
    && !(fraction.isEmpty && exponent.isEmpty)

def float? (cs : List Char) : Option Float :=
  if isFloat cs then Decimal.readFloat? (cs.filter (· != '_')) else none

def fixedDigits? (n : Nat) (cs : List Char) : Option Nat :=
  if cs.length = n ∧ cs.all Char.isDigit then some (Decimal.natOfDigits cs) else none

def isDay (cs : List Char) : Bool :=
  match cs.splitOn '-' with
  | [year, month, day] =>
      match fixedDigits? 4 year, fixedDigits? 2 month, fixedDigits? 2 day with
      | some y, some m, some d =>
          let leap := y % 4 == 0 && (y % 100 != 0 || y % 400 == 0)
          let days :=
            if m == 2 then if leap then 29 else 28
            else if [4, 6, 9, 11].contains m then 30
            else 31
          1 ≤ m && m ≤ 12 && 1 ≤ d && d ≤ days
      | _, _, _ => false
  | _ => false

/-- Whether the word is a time of day; seconds may be left out and may have a fraction. -/
def isTime (cs : List Char) : Bool :=
  let inRange (n most : Nat) (cs : List Char) : Bool := (fixedDigits? n cs).any (· ≤ most)
  match cs.splitOn ':' with
  | [hour, minute] => inRange 2 23 hour && inRange 2 59 minute
  | [hour, minute, second] =>
      let fraction := second.dropWhile (· != '.')
      -- A leap second has the number 60.
      inRange 2 23 hour && inRange 2 59 minute && inRange 2 60 (second.takeWhile (· != '.'))
        && (fraction.isEmpty || (2 ≤ fraction.length && (fraction.drop 1).all Char.isDigit))
  | _ => false

def isDate (cs : List Char) : Bool :=
  let day := cs.take 10
  let isJoint (c : Char) : Bool := c == 'T' || c == 't' || c == ' '
  match cs.drop 10 with
  | [] => isDay day || isTime cs
  | joint :: rest =>
      let isOffset (c : Char) : Bool := c == 'Z' || c == 'z' || c == '+' || c == '-'
      let time := rest.takeWhile (!isOffset ·)
      let offset := rest.dropWhile (!isOffset ·)
      let offsetOk := match offset with
        | [] => true
        | [c] => c == 'Z' || c == 'z'
        | c :: shift => (c == '+' || c == '-') && shift.length == 5 && isTime shift
      (isDay day && isJoint joint && isTime time && offsetOk) || isTime cs

def word? (cs : List Char) : Option Value :=
  let text := String.ofList cs
  if text = "true" then some (.boolean true)
  else if text = "false" then some (.boolean false)
  else
    match integer? cs, float? cs with
    | some n, _ => some (.integer n)
    | none, some x => some (.float x)
    | none, none =>
        if isSpecial cs then some (.special text)
        else if isDate cs then some (.date text)
        else none

/-- Reads a word. A blank belongs to it if it stands between a day and a time. -/
def scalar? (cs : List Char) : Option (Value × List Char) := do
  let isPart (c : Char) : Bool := c.isAlphanum || "+-_.:".toList.contains c
  let head := cs.takeWhile isPart
  let rest := cs.dropWhile isPart
  let (word, rest) := match rest with
    | ' ' :: d :: more =>
        if isDay head && d.isDigit then
          let time := (d :: more).takeWhile isPart
          (head ++ [' '] ++ time, (d :: more).dropWhile isPart)
        else (head, rest)
    | _ => (head, rest)
  pure (← word? word, rest)

mutual

/-- Reads a value with at most `depth` values nested in each other. -/
def value? (depth : Nat) : Nat → List Char → Option (Value × List Char)
  | 0, _ => none
  | rounds + 1, cs =>
      match cs with
      | '[' :: rest =>
          if depth = 0 then none
          else do
            let (items, rest) ← items? (depth - 1) rounds (skipLines rest.length rest)
            pure (.array items, rest)
      | '{' :: rest =>
          if depth = 0 then none
          else do
            let (entries, rest) ← entries? (depth - 1) rounds [] (skipLines rest.length rest)
            pure (.table (Part.entryValues entries), rest)
      | '\x22' :: _ => (string? cs).map fun (s, rest) => (.string s, rest)
      | '\x27' :: _ => (string? cs).map fun (s, rest) => (.string s, rest)
      | _ => scalar? cs

def items? (depth : Nat) : Nat → List Char → Option (List Value × List Char)
  | 0, _ => none
  | rounds + 1, cs =>
      match cs with
      | ']' :: rest => some ([], rest)
      | _ => do
          let (item, rest) ← value? depth rounds cs
          match skipLines rest.length rest with
          | ']' :: rest => pure ([item], rest)
          | ',' :: rest => do
              let (items, rest) ← items? depth rounds (skipLines rest.length rest)
              pure (item :: items, rest)
          | _ => none

def entries? (depth : Nat) : Nat → Entries → List Char → Option (Entries × List Char)
  | 0, _, _ => none
  | rounds + 1, entries, cs =>
      match cs with
      | '}' :: rest => some (entries, rest)
      | _ => do
          let (key, rest) ← key? cs
          match skipLines rest.length rest with
          | '=' :: rest => do
              let (value, rest) ← value? depth rounds (skipLines rest.length rest)
              let entries ← entries.addValue value key
              match skipLines rest.length rest with
              | '}' :: rest => pure (entries, rest)
              | ',' :: rest => entries? depth rounds entries (skipLines rest.length rest)
              | _ => none
          | _ => none

end

def header? (cs : List Char) : Option (Bool × List String × List Char) := do
  let isItem := cs.take 2 == ['[', '[']
  let (key, rest) ← key? (skipBlanks (cs.drop (if isItem then 2 else 1)))
  match isItem, skipBlanks rest with
  | true, ']' :: ']' :: rest => pure (true, key, rest)
  | false, ']' :: rest => pure (false, key, rest)
  | _, _ => none

/-- Reads statements; `current` is the key of the last header. -/
def statements? : Nat → List String → Entries → List Char → Option Entries
  | 0, _, _, _ => none
  | rounds + 1, current, entries, cs =>
      match skipLines (cs.length + 1) cs with
      | [] => some entries
      | '[' :: rest => do
          let (isItem, key, rest) ← header? ('[' :: rest)
          let name ← key.getLast?
          let opening := if isItem then Entries.openItem name else Entries.openTable name
          let entries ← entries.within opening key.dropLast
          statements? rounds key entries (← endOfLine? rest)
      | cs => do
          let (key, rest) ← key? cs
          match skipBlanks rest with
          | '=' :: rest => do
              let (value, rest) ← value? maxDepth (rest.length + 1) (skipBlanks rest)
              let entries ← entries.within (Entries.addValue value key) current
              statements? rounds current entries (← endOfLine? rest)
          | _ => none

def ofText? (text : List Char) : Option (List (String × Value)) :=
  -- A mark of the byte order does not belong to the file.
  let text := match text with
    | '\ufeff' :: rest => rest
    | text => text
  (statements? (text.length + 1) [] [] text).map Part.entryValues

end Toml
end DesignTokens

/-!
Reading numbers.

Integers are read digit by digit from the left against a bound, so that of two faults the one
further left is reported. Doubles are read as a decimal fraction with an optional exponent and
rounded once.
-/

namespace DesignTokens
namespace Decimal

inductive IntegerError where
  | empty
  | digit
  | tooLarge
  | tooSmall
  deriving DecidableEq, Repr

def IntegerError.message : IntegerError → String
  | .empty => "cannot parse integer from empty string"
  | .digit => "invalid digit found in string"
  | .tooLarge => "number too large to fit in target type"
  | .tooSmall => "number too small to fit in target type"

def digitValue? (base : Nat) (c : Char) : Option Nat :=
  let n := c.toNat
  let value : Option Nat :=
    if 48 ≤ n ∧ n ≤ 57 then some (n - 48)
    else if 97 ≤ n ∧ n ≤ 102 then some (n - 87)
    else if 65 ≤ n ∧ n ≤ 70 then some (n - 55)
    else none
  value.filter (· < base)

/-- Reads digits onto `acc`; `most` is the largest value allowed and `overflow` the error for more.
-/
def readDigits (base most : Nat) (overflow : IntegerError) :
    Nat → List Char → Except IntegerError Nat
  | acc, [] => .ok acc
  | acc, c :: cs =>
      match digitValue? base c with
      | none => .error .digit
      | some d =>
          if acc * base + d ≤ most then readDigits base most overflow (acc * base + d) cs
          else .error overflow

def readNonempty (base most : Nat) (overflow : IntegerError) (cs : List Char) :
    Except IntegerError Nat :=
  if cs.isEmpty then .error .digit else readDigits base most overflow 0 cs

/-- Reads a natural number up to `most`; a plus sign is allowed. -/
def readNat (base most : Nat) (cs : List Char) : Except IntegerError Nat :=
  match cs with
  | [] => .error .empty
  | '+' :: digits => readNonempty base most .tooLarge digits
  | digits => readDigits base most .tooLarge 0 digits

def readInt (base least most : Nat) (cs : List Char) : Except IntegerError Int :=
  match cs with
  | '-' :: digits => (readNonempty base least .tooSmall digits).map fun n => -(n : Int)
  | cs => (readNat base most cs).map Int.ofNat

def maxNat (bits : Nat) : Nat :=
  Nat.pow 2 bits - 1

def readSigned (bits base : Nat) (cs : List Char) : Except IntegerError Int :=
  readInt base (maxNat (bits - 1) + 1) (maxNat (bits - 1)) cs

def natOfDigits (cs : List Char) : Nat :=
  cs.foldl (fun acc c => acc * 10 + (c.toNat - 48)) 0

/-- The double nearest to `digits · 10^exponent`. Exponents far outside the range of doubles are cut
off first. -/
def roundDecimal (digits : Nat) (exponent : Int) : Float :=
  let place : Int := (Nat.toDigits 10 digits).length + exponent
  if digits = 0 ∨ place < -400 then 0
  else if 400 < place then 1 / 0
  else if 0 ≤ exponent then Float.ofScientific digits false exponent.toNat
  else Float.ofScientific digits true (-exponent).toNat

def readExponent? (cs : List Char) : Option Int :=
  let signed (cs : List Char) : Option Int :=
    let (negative, digits) :=
      match cs with
      | '-' :: ds => (true, ds)
      | '+' :: ds => (false, ds)
      | ds => (false, ds)
    if digits.isEmpty || !digits.all Char.isDigit then none
    else
      -- Larger exponents make no difference, and they are cut off before they are computed.
      let n : Int := min (natOfDigits (digits.dropWhile (· == '0') |>.take 20)) 1000000000000000000
      some (if negative then -n else n)
  match cs with
  | [] => some 0
  | 'e' :: rest => signed rest
  | 'E' :: rest => signed rest
  | _ => none

/-- Reads an unsigned decimal fraction such as `12`, `1.5`, `.5`, `5.` or `1e-3`. -/
def readFraction? (cs : List Char) : Option Float := do
  let whole := cs.takeWhile Char.isDigit
  let rest := cs.dropWhile Char.isDigit
  let (part, rest) :=
    match rest with
    | '.' :: after => (after.takeWhile Char.isDigit, after.dropWhile Char.isDigit)
    | rest => ([], rest)
  if whole.isEmpty && part.isEmpty then none
  else
    let exponent ← readExponent? rest
    pure (roundDecimal (natOfDigits (whole ++ part)) (exponent - part.length))

/-- Reads an unsigned double; the words for infinity and for not-a-number may be in any case. -/
def readMagnitude? (cs : List Char) : Option Float :=
  let word := String.ofList (cs.map Char.toLower)
  if word = "inf" ∨ word = "infinity" then some (1 / 0)
  else if word = "nan" then some (0 / 0)
  else readFraction? cs

def readFloat? (cs : List Char) : Option Float :=
  match cs with
  | '-' :: rest => (readMagnitude? rest).map Float.neg
  | '+' :: rest => readMagnitude? rest
  | rest => readMagnitude? rest

end Decimal
end DesignTokens

import DesignTokens.Yaml.Value
import DesignTokens.Yaml.Fault

/-!
What the text of a scalar denotes.

A plain scalar without a tag is null, a boolean, an integer, a double or else a string. Digits
behind a leading zero are a string. Integers have 64 bits; those that need up to 128 are refused,
and wider ones are doubles. A quoted or block scalar is a string. The four core tags demand their
kind whatever the style.
-/

namespace DesignTokens
namespace Yaml
namespace Scalar

def isNull (cs : List Char) : Bool :=
  ["null", "Null", "NULL", "~"].contains (String.ofList cs)

def bool? (cs : List Char) : Option Bool :=
  let word := String.ofList cs
  if ["true", "True", "TRUE"].contains word then some true
  else if ["false", "False", "FALSE"].contains word then some false
  else none

def isPaddedDigits (cs : List Char) : Bool :=
  let digits :=
    match cs with
    | '-' :: ds => ds
    | '+' :: ds => ds
    | ds => ds
  match digits with
  | '0' :: d :: ds => (d :: ds).all Char.isDigit
  | _ => false

def startsWithSign : List Char → Bool
  | '+' :: _ => true
  | '-' :: _ => true
  | _ => false

def base? : List Char → Option (Nat × List Char)
  | '0' :: 'x' :: ds => some (16, ds)
  | '0' :: 'o' :: ds => some (8, ds)
  | '0' :: 'b' :: ds => some (2, ds)
  | _ => none

def nat? (bits : Nat) (cs : List Char) : Option Nat :=
  let unsigned :=
    match cs with
    | '+' :: ds => ds
    | ds => ds
  if startsWithSign unsigned then none
  else
    match base? unsigned with
    | some (base, ds) =>
        -- A sign behind the base would be read with the digits.
        if startsWithSign ds then none else (Decimal.readNat base (Decimal.maxNat bits) ds).toOption
    | none =>
        if isPaddedDigits cs then none
        else (Decimal.readNat 10 (Decimal.maxNat bits) unsigned).toOption

/-- Reads a signed integer of so many bits, whose minus sign stands before its base if it has one.
-/
def int? (bits : Nat) (cs : List Char) : Option Int :=
  let based : Option (Nat × List Char) :=
    match cs with
    | '-' :: ds => base? ds
    | _ => none
  match based with
  | some (base, ds) => (Decimal.readSigned bits base ('-' :: ds)).toOption
  | none => if isPaddedDigits cs then none else (Decimal.readSigned bits 10 cs).toOption

def wide? (bits : Nat) (cs : List Char) : Option Int :=
  ((nat? bits cs).map Int.ofNat).orElse fun _ => int? bits cs

/-- Reads an integer: the value if it has 64 bits, a fault if it has up to 128, nothing otherwise.
-/
def integer? (cs : List Char) : Option (Except Fault Int) :=
  match wide? 64 cs with
  | some n => some (.ok n)
  | none => if (wide? 128 cs).isSome then some (.error .badScalar) else none

/-- Reads a double. Infinity and not-a-number have a leading point; no other text denotes them. -/
def float? (cs : List Char) : Option Float :=
  let word := String.ofList cs
  let infinity := [".inf", ".Inf", ".INF"]
  let (plus, unsigned) :=
    match cs with
    | '+' :: ds => (true, ds)
    | ds => (false, ds)
  if plus && startsWithSign unsigned then none
  else if infinity.contains (String.ofList unsigned) then some (1 / 0)
  else if (infinity.map ("-" ++ ·)).contains word then some (-(1 / 0))
  else if [".nan", ".NaN", ".NAN"].contains word then some (0 / 0)
  else (Decimal.readFloat? unsigned).filter Float.isFinite

def plain (cs : List Char) : Except Fault Value :=
  if cs.isEmpty || isNull cs then .ok .null
  else
    match bool? cs with
    | some b => .ok (.bool b)
    | none =>
        match integer? cs with
        | some n => n.map fun n => .number (.int n)
        | none =>
            match (if isPaddedDigits cs then none else float? cs) with
            | some x => .ok (.number (.float x))
            | none => .ok (.string (String.ofList cs))

def core (kind : String) : String :=
  "tag:yaml.org,2002:" ++ kind

def tagged (tag : String) (cs : List Char) : Except Fault Value :=
  let need (v : Option Value) : Except Fault Value :=
    match v with
    | some v => .ok v
    | none => .error .badScalar
  if tag = core "bool" then need ((bool? cs).map .bool)
  else if tag = core "int" then
    match integer? cs with
    | some n => n.map fun n => .number (.int n)
    | none => .error .badScalar
  else if tag = core "float" then need ((float? cs).map fun x => .number (.float x))
  else if tag = core "null" then need (if isNull cs then some .null else none)
  else .ok (.string (String.ofList cs))

end Scalar
end Yaml
end DesignTokens
